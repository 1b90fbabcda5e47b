import BranchBound.Proofs.Deduplication
import BranchBound.Proofs.Double.Parabola
import BranchBound.Proofs.Faults

/-!
# Termination

A search ends whatever its relaxation answers, even if that is the same point at every node. The
tree need not be finite; what is used up is the budget, which all nodes share.

A visit either spends nothing and has no children, or it spends one iteration that the budget
allows and has two children at most (`charge_of_visit`). So the visits made, the nodes pending and
twice the iterations that are left are never more than at the start (`Run.Within`), and a search
comes to `2 * n + 1` nodes at most under a limit of `n` iterations (`solve_ends_within_budget`).
The count of iterations passes the ceiling once at most: from then on the budget allows nothing.
-/

namespace BranchBound

variable {α : Type} [Scalar α] {search : Search α}

/-! ## One visit -/

/-- What a visit costs: nothing if it has no children, else one iteration that the budget allows. -/
theorem charge_of_visit {elapsed : Nat} {σ : State α} {node : Node α} {v : Visit α}
    (h : visit search elapsed σ node = .ok v) :
    (v.state.budget = σ.budget ∧ v.outcome.children = []) ∨
      (v.state.budget = σ.budget.spend ∧ σ.budget.allows elapsed = true ∧
        v.outcome.children.length ≤ 2) := by
  cases Visit.course_of_visit h with
  | outOfBudget | seenBefore | unpromising | noPoint => exact Or.inl ⟨rfl, rfl⟩
  | overCeiling asks => exact Or.inr ⟨rfl, asks.allowed, Nat.zero_le 2⟩
  | unusable asks => exact Or.inr ⟨rfl, asks.allowed, Nat.zero_le 2⟩
  | whole takes => exact Or.inr ⟨rfl, takes.allowed, Nat.zero_le 2⟩
  | dominated takes => exact Or.inr ⟨rfl, takes.allowed, Nat.zero_le 2⟩
  | split takes => exact Or.inr ⟨rfl, takes.allowed, le_refl 2⟩

omit [Scalar α] in
/-- An iteration that the budget allows stays within its limit, and within one above the ceiling. -/
theorem Budget.Limited.spend_le {s : Settings α} {b : Budget} {elapsed : Nat} (hb : b.Limited s)
    (hallows : b.allows elapsed = true) :
    b.spend.iterations ≤ s.maxIterations ∧ b.spend.iterations ≤ s.iterationCeiling + 1 := by
  have hlt := iterations_lt_of_allows hallows
  have hceiling : ¬b.ceiling < b.iterations :=
    of_decide_eq_false (isExhausted_of_allows hallows)
  unfold Limited at hb
  rw [hb] at hlt hceiling
  simp only [ofSettings] at hlt hceiling
  show b.iterations + 1 ≤ _ ∧ b.iterations + 1 ≤ _
  omega

namespace Run

variable {r s : Run α} {settings : Settings α}

/-- A visit of any pending node lowers the measure. -/
theorem measure_absorb_lt {elapsed : Nat} {node : Node α} {rest : List (Node α)} {v : Visit α}
    (hperm : r.pending.Perm (node :: rest))
    (hvisit : visit search elapsed r.state node = .ok v) :
    (r.absorb rest v).measure < r.measure := by
  have hlength := hperm.length_eq
  unfold measure
  rw [pending_absorb, state_absorb, List.length_append, hlength, List.length_cons]
  rcases charge_of_visit hvisit with ⟨hbudget, hchildren⟩ | ⟨hbudget, hallows, hchildren⟩
  · rw [hbudget, hchildren, List.length_nil]
    omega
  · have hlt := Budget.iterations_lt_of_allows hallows
    rw [hbudget]
    show 2 * (r.state.budget.maxIterations - (r.state.budget.iterations + 1)) + _ < _
    omega

/-! ## A whole run -/

/-- How far a run got within the limits of the settings. The visits so far are those of the
journal, and those that can still come are bounded by the measure. -/
structure Within (settings : Settings α) (r : Run α) : Prop where
  limited : r.state.budget.Limited settings
  length_nodes : (nodesOf r.journal).length = r.visits
  visits_add_measure_le : r.visits + r.measure ≤ 2 * settings.maxIterations + 1
  iterations_le : r.state.budget.iterations ≤ settings.maxIterations
  iterations_le_ceiling : r.state.budget.iterations ≤ settings.iterationCeiling + 1

omit [Scalar α] in
theorem Within.visits_le (h : r.Within settings) : r.visits ≤ 2 * settings.maxIterations + 1 :=
  (Nat.le_add_right _ _).trans h.visits_add_measure_le

theorem Within.of_advances (hr : r.Within settings) (h : Advances search r s) :
    s.Within settings := by
  obtain ⟨before, after, node, elapsed, v, hperm, hvisit, rfl⟩ := h.exists_visit
  have hmeasure := measure_absorb_lt hperm hvisit
  have hbound := hr.visits_add_measure_le
  have hiterations : v.state.budget.iterations ≤ settings.maxIterations ∧
      v.state.budget.iterations ≤ settings.iterationCeiling + 1 := by
    rcases charge_of_visit hvisit with ⟨hsame, -⟩ | ⟨hspent, hallows, -⟩
    · rw [hsame]
      exact ⟨hr.iterations_le, hr.iterations_le_ceiling⟩
    · rw [hspent]
      exact hr.limited.spend_le hallows
  refine ⟨?_, ?_, ?_, ?_, ?_⟩
  · rw [state_absorb]
    exact limited_of_visit hvisit hr.limited
  · have hnodes : (r.journal.toList.filterMap Event.ended?).length = r.visits := hr.length_nodes
    rw [visits_absorb, journal_absorb, nodesOf, Array.toList_appendList, List.filterMap_append,
      List.length_append, (ended_of_visit hvisit).1, hnodes]
    rfl
  · rw [visits_absorb]
    omega
  · rw [state_absorb]
    exact hiterations.1
  · rw [state_absorb]
    exact hiterations.2

/-- A run starts with the root pending and the whole budget. -/
theorem within_start {warmStart : Option (Array α)} (h : search.start warmStart = .ok r) :
    r.Within search.settings := by
  obtain ⟨hpending, hopens, -, -, hvisits, -⟩ := Search.start_eq_ok h
  obtain ⟨hquiet, -, -⟩ := Search.quiet_start h
  refine ⟨?_, ?_, ?_, ?_, ?_⟩
  · rw [hopens.budget]
    rfl
  · rw [hvisits, nodesOf, (ended_quiet hquiet).1]
    rfl
  · unfold measure
    rw [hvisits, hpending, hopens.budget]
    simp [Budget.ofSettings]
  · rw [hopens.budget]
    exact Nat.zero_le _
  · rw [hopens.budget]
    exact Nat.zero_le _

/-- Along every schedule a run stays within the limits. -/
theorem Within.of_reaches (hr : r.Within settings) (h : Reaches search r s) : s.Within settings :=
  invariant_of_reaches (P := Within settings) (fun hstep hr => hr.of_advances hstep) h hr

/-- What ends a journal is about no node. -/
theorem nodes_finish (r : Run α) (elapsed : Nat) :
    nodesOf (r.finish elapsed).journal = nodesOf r.journal := by
  obtain ⟨last, hquiet, hjournal⟩ := r.journal_finish elapsed
  unfold nodesOf
  rw [hjournal, List.filterMap_append, (ended_quiet hquiet).1, List.append_nil]

end Run

/-! ## The report -/

/-- Whatever the relaxation answers, a search ends: at once if its settings have a fault, and else
with a report. It comes to `2 * n + 1` nodes at most under a limit of `n` iterations. The count of
iterations is never above that limit, nor more than one above the ceiling, at the end or at any
time before, whichever pending node is visited next. -/
theorem solve_ends_within_budget (problem : Problem α)
    (hknown : ∀ var ∈ problem.integers, var < problem.size)
    (answers : Nat → Node α → Option (Cutoff α) → Answer α) (settings : Settings α)
    (warmStart : Option (Array α)) (clock : Nat → Nat) :
    let search : Search α :=
      ⟨problem, fun call node cutoff => .ok (answers call node cutoff), settings⟩
    (∀ e, settings.check = .error e → search.solve warmStart clock = .error e) ∧
    (settings.check = .ok () → ∃ report, search.solve warmStart clock = .ok report ∧
      (nodesOf report.journal).length ≤ 2 * settings.maxIterations + 1 ∧
      report.solution.iterations ≤ settings.maxIterations ∧
      report.solution.iterations ≤ settings.iterationCeiling + 1) ∧
    ∀ start r, search.start warmStart = .ok start → Run.Reaches search start r →
      (nodesOf r.journal).length = r.visits ∧ r.visits ≤ 2 * settings.maxIterations + 1 ∧
      r.state.budget.iterations ≤ settings.maxIterations ∧
      r.state.budget.iterations ≤ settings.iterationCeiling + 1 := by
  intro search
  refine ⟨fun e he => Search.solve_eq_error_of_check he warmStart clock, fun hcheck => ?_, ?_⟩
  · have hanswers : ∀ (call : Nat) (node : Node α) (cutoff : Option (Cutoff α)),
        node.IsOver search.problem → ∃ answer, search.relaxation call node cutoff = .ok answer :=
      fun call node cutoff _ => ⟨answers call node cutoff, rfl⟩
    obtain ⟨report, hreport⟩ := Search.solve_ok hknown hcheck hanswers warmStart clock
    refine ⟨report, hreport, ?_⟩
    obtain ⟨-, start, last, hstart, hrun, rfl⟩ := Search.solve_eq_ok hreport
    have hlast := (Run.within_start hstart).of_reaches (reaches_of_run hrun).1
    rw [Run.nodes_finish, hlast.length_nodes]
    exact ⟨hlast.visits_le, hlast.iterations_le, hlast.iterations_le_ceiling⟩
  · intro start r hstart hreaches
    have hr := (Run.within_start hstart).of_reaches hreaches
    exact ⟨hr.length_nodes, hr.visits_le, hr.iterations_le, hr.iterations_le_ceiling⟩

/-- The parabola, when its best point is answered at every node: the tree has no end, and with three
iterations the search comes to as many nodes as it may. -/
theorem solve_ends_within_budget_parabola : ∃ report,
    let settings : Settings Float :=
      { Settings.standard with relativeGap := 0.0, maxIterations := 3 }
    Search.solve ⟨Parabola.problem, fun _ _ _ => .ok (.optimal #[1.5] 1.875), settings⟩ none
      (fun _ => 0) = .ok report ∧
      (nodesOf report.journal).length ≤ 2 * 3 + 1 ∧ report.solution.iterations ≤ 3 ∧
      report.solution.iterations ≤ settings.iterationCeiling + 1 ∧
      (nodesOf report.journal).length = 7 ∧ report.solution.iterations = 3 := by
  let settings : Settings Float :=
    { Settings.standard with relativeGap := 0.0, maxIterations := 3 }
  obtain ⟨-, hends, -⟩ := solve_ends_within_budget Parabola.problem (by decide)
    (fun _ _ _ => .optimal #[1.5] 1.875) settings none fun _ => 0
  obtain ⟨report, hreport, hnodes, hiterations, hceiling⟩ := hends (by decide +kernel)
  have hrun : (Search.solve ⟨Parabola.problem, fun _ _ _ => .ok (.optimal #[1.5] 1.875), settings⟩
      none fun _ => 0).toOption.map (fun report =>
        ((nodesOf report.journal).length, report.solution.iterations)) = some (7, 3) := by
    decide +kernel
  obtain ⟨report', hreport', hcounts⟩ := exists_of_toOption_map hrun
  obtain rfl := Except.ok.inj (hreport.symm.trans hreport')
  exact ⟨report, hreport, hnodes, hiterations, hceiling, congrArg Prod.fst hcounts,
    congrArg Prod.snd hcounts⟩

end BranchBound
