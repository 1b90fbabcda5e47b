import BranchBound.Proofs.Agreement
import BranchBound.Proofs.Counting

/-!
# Completion

A search with enough iterations to its budget goes through the whole tree, if its relaxation always
answers, with usable points that are confined to finite bounds (`Run.Thorough.exists_visit`). If the
relaxation is sound for a set `S` on top of that, and there is no gap, the search comes to a best
point of `S` or finds out that there is none (`solve_thorough`).
-/

namespace BranchBound

variable {search : Search Exact} {S : Set (Array Exact)}
  {lo hi : Fin search.problem.integers.size → ℤ}

/-- Whether a relaxation always answers, and every point that it gives can be used. -/
structure Search.Served (search : Search Exact) : Prop where
  answers : ∀ {call : Nat} {node : Node Exact} {cutoff : Option (Cutoff Exact)},
    node.IsOver search.problem → ∃ answer, search.relaxation call node cutoff = .ok answer
  usable : ∀ {call : Nat} {node : Node Exact} {cutoff : Option (Cutoff Exact)}
    {answer : Answer Exact}, node.IsOver search.problem →
    search.relaxation call node cutoff = .ok answer → answer.verdict.isFeasible = true →
    Visit.isUsable search answer.point = true

/-- Whether a search has no time limit and as many iterations as its tree can take. -/
structure Search.Roomy (search : Search Exact)
    (lo hi : Fin search.problem.integers.size → ℤ) : Prop where
  timeLimit : search.settings.timeLimit = none
  maxIterations : 2 * search.root.room lo hi ≤ search.settings.maxIterations
  ceiling : 2 * search.root.room lo hi ≤ search.settings.iterationCeiling

/-- A run that left nothing out and has kept all of its promises. -/
structure Run.Thorough (search : Search Exact) (S : Set (Array Exact))
    (lo hi : Fin search.problem.integers.size → ℤ) (r : Run Exact) : Prop where
  invariant : r.Invariant search S
  found : r.FoundIn S
  counted : r.Counted search lo hi
  limited : r.state.budget.Limited search.settings
  complete : r.complete = true

namespace Run

variable {r : Run Exact}

/-- The budget of a thorough run with a pending node allows another iteration. -/
theorem Thorough.allows (hroomy : search.Roomy lo hi) (h : r.Thorough search S lo hi)
    {node : Node Exact} (hnode : node ∈ r.pending) (elapsed : Nat) :
    r.state.budget.allows elapsed = true ∧ r.state.budget.spend.isExhausted = false := by
  have hlt := h.counted.iterations_lt hnode
  have hmax := hroomy.maxIterations
  have hceiling := hroomy.ceiling
  have hlimited := h.limited
  unfold Budget.Limited at hlimited
  constructor
  · rw [hlimited]
    simp only [Budget.allows, Budget.isExhausted, Budget.ofSettings, hroomy.timeLimit,
      Bool.and_true, Bool.and_eq_true, Bool.not_eq_true', decide_eq_false_iff_not,
      decide_eq_true_iff]
    omega
  · rw [hlimited]
    refine decide_eq_false ?_
    show ¬search.settings.iterationCeiling < r.state.budget.iterations + 1
    omega

/-- Every visit of a thorough run succeeds, and the run stays thorough. -/
theorem Thorough.exists_visit (hcheck : search.settings.check = .ok ())
    (hgap : search.settings.relativeGap ≤ .ofRat 1)
    (hknown : ∀ var ∈ search.problem.integers, var < search.problem.size)
    (hserved : search.Served) (hroomy : search.Roomy lo hi)
    (hconfined : search.relaxation.Confined search.problem lo hi)
    (hsound : search.relaxation.Sound search.problem S) (hleaves : search.LeavesIn S)
    (hwhole : ∀ p ∈ S, search.problem.Whole p) (h : r.Thorough search S lo hi)
    {node : Node Exact} {rest : List (Node Exact)} (hpending : r.pending = node :: rest)
    (elapsed : Nat) : ∃ v, visit search elapsed r.state node = .ok v ∧
      (r.absorb rest v).Thorough search S lo hi := by
  obtain ⟨-, -, -, hlog⟩ := Settings.of_check hcheck
  have htol := Settings.integrality_nonneg hcheck
  have hnode : node ∈ r.pending := by
    rw [hpending]
    exact List.mem_cons_self
  have hcoherent := h.invariant.coherent
  have hover := hcoherent.isOver node hnode
  obtain ⟨hallows, haffordable⟩ := h.allows hroomy hnode elapsed
  obtain ⟨v, hv⟩ := visit_ok hlog hover hknown fun cutoff => hserved.answers hover
  -- neither the budget nor an unusable point can end the search early
  have hexhaustive := isExhaustive_of_visit hallows
    (fun asks hfeasible => ⟨hserved.usable hover asks.answered hfeasible, haffordable⟩) hv
  have hstep : Advances search r (r.absorb rest v) := advances_of_visit hpending hv
  refine ⟨v, hv, h.invariant.of_advances hcheck hgap hsound hwhole hstep,
    h.found.of_advances hleaves hcoherent hstep,
    h.counted.of_advances htol hconfined hcoherent hstep, ?_, ?_⟩
  · rw [state_absorb]
    exact limited_of_visit hv h.limited
  · rw [complete_absorb, h.complete, hexhaustive]
    rfl

end Run

/-- A search with a sound, confined relaxation that always answers goes through the whole tree, and
reports a best point of `S` if there is one, and otherwise that there is none. -/
theorem solve_thorough (hcheck : search.settings.check = .ok ())
    (hg : search.settings.relativeGap = .ofRat 0) (ha : search.settings.absoluteGap = .ofRat 0)
    (hknown : ∀ var ∈ search.problem.integers, var < search.problem.size)
    (hle : ∀ i, lo i ≤ hi i) (hserved : search.Served) (hroomy : search.Roomy lo hi)
    (hconfined : search.relaxation.Confined search.problem lo hi)
    (hsound : search.relaxation.Sound search.problem S) (hleaves : search.LeavesIn S)
    (hwhole : ∀ p ∈ S, search.problem.Whole p) (clock : Nat → Nat) :
    ∃ report, search.solve none clock = .ok report ∧
      ((∃ p, p ∈ S) → report.solution.status = .optimal ∧ report.solution.point ∈ S ∧
        report.solution.objective = search.problem.objective report.solution.point ∧
        report.solution.objective ≠ .nan ∧ ∀ p ∈ S,
          search.problem.sense.better (search.problem.objective p) report.solution.objective =
            false) ∧
      ((∀ p, p ∉ S) → report.solution.status = .infeasible) := by
  have hgap := Settings.relativeGap_le_one hg
  obtain ⟨start, hstart⟩ := Search.start_ok search
  obtain ⟨-, hopens, hcomplete, -⟩ := Search.start_eq_ok hstart
  have hthorough : start.Thorough search S lo hi :=
    ⟨Run.invariant_start hwhole hstart,
      Run.foundIn_of_start hleaves hstart Relation.ReflTransGen.refl,
      Run.counted_start hle hstart, by rw [hopens.budget]; rfl, hcomplete⟩
  obtain ⟨s, hrun, hs, hpending⟩ := run_ok
    (fun elapsed hr hpending => hr.exists_visit hcheck hgap hknown hserved hroomy hconfined hsound
      hleaves hwhole hpending elapsed) clock hthorough
  refine ⟨s.finish (clock s.visits), Search.solve_of_run hcheck hstart hrun, ?_, ?_⟩
  · rintro ⟨p, hp⟩
    obtain ⟨best, hbest, hmem, hobjective, hvalid, -⟩ :=
      hs.invariant.optimum hs.found hg ha hs.complete hpending hp
    obtain ⟨hpoint, hvalue⟩ := Run.solution_finish (clock s.visits) hbest
    rw [hpoint, hvalue]
    refine ⟨Run.status_finish_eq_optimal_iff.mpr ⟨hs.complete, best, hbest⟩, hmem, hobjective,
      hvalid, fun q hq => ?_⟩
    -- the incumbent is the same whichever point is asked about
    obtain ⟨best', hbest', -, -, -, hnot⟩ :=
      hs.invariant.optimum hs.found hg ha hs.complete hpending hq
    rw [hbest] at hbest'
    rw [Option.some.inj hbest']
    exact hnot
  · intro hnone
    refine Run.status_finish_eq_infeasible_iff.mpr ⟨hs.complete, ?_⟩
    cases hbest : s.state.board.best with
    | none => rfl
    | some best => exact absurd (hs.found best hbest) (hnone best.point)

end BranchBound
