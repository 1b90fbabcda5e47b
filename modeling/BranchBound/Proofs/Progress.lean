import BranchBound.Proofs.Branching

/-!
# Progress

A search goes on until no node is pending. A visit of a node of the problem gives no error if the
relaxation gives none (`visit_ok`): a report on progress divides by a checked frequency, and a point
is only looked into once its length is known to be right. So a run gets to its end, and keeps on the
way whatever every visit keeps (`run_ok`).

A visit leaves nothing out if the budget allows it and what it takes from the relaxation can be used
(`isExhaustive_of_visit`).
-/

namespace BranchBound

variable {α : Type} [Scalar α] {search : Search α}

/-! ## Visits without errors -/

omit [Scalar α] in
theorem progress_ok (hlog : search.settings.logFrequency ≠ 0) (elapsed : Nat) (σ : State α) :
    ∃ report, Visit.progress search elapsed σ = .ok report := by
  unfold Visit.progress
  rw [if_neg hlog]
  split
  · exact ⟨_, rfl⟩
  · split
    · exact ⟨_, rfl⟩
    · exact ⟨_, rfl⟩

variable {elapsed : Nat} {σ : State α} {node : Node α}

/-- A point of the right length is offered, dropped, or branched on. -/
theorem ofPoint_ok (hover : node.IsOver search.problem)
    (hknown : ∀ var ∈ search.problem.integers, var < search.problem.size) {x : Array α}
    (hsize : x.size = search.problem.size) (σ : State α) (events : List (Event α)) :
    ∃ v, Visit.ofPoint search σ node x events = .ok v := by
  obtain ⟨found, hfound⟩ : ∃ found, search.criteria.branching? x node = .ok found := by
    refine Criteria.branching?_ok fun i var hvar => ?_
    rw [hover.1] at hvar
    rw [hsize]
    exact hknown var (Array.mem_of_getElem? hvar)
  unfold Visit.ofPoint
  simp only [hfound, bind, Except.bind, pure, Except.pure]
  cases found with
  | none => exact ⟨_, rfl⟩
  | some branching =>
    dsimp only
    split
    · exact ⟨_, rfl⟩
    -- a split fails only at a position without a cut
    · obtain ⟨hvar, -⟩ := Criteria.branching?_eq_some hfound
      have hlt : branching.position < node.cuts.size := by
        rw [hover.2, ← hover.1]
        exact (Array.getElem?_eq_some_iff.mp hvar).1
      obtain ⟨s, hs⟩ := Node.split_ok hlt (search.problem.objective x)
      rw [hs]
      exact ⟨_, rfl⟩

/-- An answer is counted, and its point is only read if it can be used. -/
theorem ofAnswer_ok (hover : node.IsOver search.problem)
    (hknown : ∀ var ∈ search.problem.integers, var < search.problem.size) (σ : State α)
    (answer : Answer α) (events : List (Event α)) :
    ∃ v, Visit.ofAnswer search σ node answer events = .ok v := by
  cases hspend : σ.budget.spend.isExhausted with
  | true => exact ⟨_, Visit.ofAnswer_of_exhausted hspend⟩
  | false =>
    rw [Visit.ofAnswer_of_not_exhausted hspend]
    split
    · exact ⟨_, rfl⟩
    · rename_i husable
      rw [Bool.not_eq_true, Bool.not_eq_false'] at husable
      -- usable points have a value for every whole variable
      exact ofPoint_ok hover hknown (Visit.size_of_isUsable husable) _ _

/-- Asking the relaxation and using its answer gives no error if the relaxation gives none. -/
theorem solve_ok (hlog : search.settings.logFrequency ≠ 0) (hover : node.IsOver search.problem)
    (hknown : ∀ var ∈ search.problem.integers, var < search.problem.size)
    (hanswer : ∀ cutoff, ∃ answer, search.relaxation σ.board.solved node cutoff = .ok answer) :
    ∃ v, Visit.solve search elapsed (σ.marked node) node = .ok v := by
  obtain ⟨answer, hanswer⟩ := hanswer (search.criteria.cutoff? σ.board.bestValue)
  obtain ⟨report, hreport⟩ := progress_ok hlog elapsed (σ.asked node)
  have hreport' : Visit.progress search elapsed
      { σ.marked node with board := (σ.marked node).board.countSolved } = .ok report := hreport
  unfold Visit.solve State.marked at *
  simp only [hanswer, hreport', bind, Except.bind, pure, Except.pure]
  split
  · exact ofAnswer_ok hover hknown _ answer _
  · exact ⟨_, rfl⟩

/-- A visit gives no error if the relaxation gives none. -/
theorem visit_ok (hlog : search.settings.logFrequency ≠ 0) (hover : node.IsOver search.problem)
    (hknown : ∀ var ∈ search.problem.integers, var < search.problem.size)
    (hanswer : ∀ cutoff, ∃ answer, search.relaxation σ.board.solved node cutoff = .ok answer) :
    ∃ v, visit search elapsed σ node = .ok v := by
  unfold visit
  split
  · exact ⟨_, rfl⟩
  · dsimp only
    split
    · exact ⟨_, rfl⟩
    · split
      · exact ⟨_, rfl⟩
      · exact solve_ok hlog hover hknown hanswer

/-- A visit within the budget leaves nothing out if the points that it gets can be used, within the
ceiling. -/
theorem isExhaustive_of_visit {v : Visit α} (hallows : σ.budget.allows elapsed = true)
    (husable : ∀ {answer : Answer α} {events : List (Event α)},
      Visit.Asks search elapsed σ node answer events → answer.verdict.isFeasible = true →
      Visit.isUsable search answer.point = true ∧ σ.budget.spend.isExhausted = false)
    (h : visit search elapsed σ node = .ok v) : v.outcome.isExhaustive = true := by
  cases Visit.course_of_visit h with
  | outOfBudget hnot =>
    rw [hallows] at hnot
    cases hnot
  | overCeiling asks feasible hover =>
    rw [(husable asks feasible).2] at hover
    cases hover
  | unusable asks feasible _ hnot =>
    rw [(husable asks feasible).1] at hnot
    cases hnot
  | seenBefore | unpromising | noPoint | whole | dominated | split => rfl

/-- A visit that leaves nothing out was within the budget. -/
theorem allows_of_isExhaustive {v : Visit α} (hexhaustive : v.outcome.isExhaustive = true)
    (h : visit search elapsed σ node = .ok v) : σ.budget.allows elapsed = true := by
  cases ha : σ.budget.allows elapsed with
  | true => rfl
  | false =>
    unfold visit at h
    rw [ha] at h
    rw [← Except.ok.inj h] at hexhaustive
    cases hexhaustive

/-! ## The limits of the budget -/

/-- A budget with the limits of the settings, however much of it was spent. -/
def Budget.Limited (b : Budget) (s : Settings α) : Prop :=
  b = { Budget.ofSettings s with iterations := b.iterations }

omit [Scalar α] in
theorem Budget.Limited.spend {b : Budget} {s : Settings α} (h : b.Limited s) :
    b.spend.Limited s := by
  unfold Limited at h ⊢
  rw [h]
  rfl

theorem Budget.spend_ne (b : Budget) : b.spend ≠ b := by
  intro h
  have hiterations : b.iterations + 1 = b.iterations := congrArg iterations h
  omega

section

variable {b b' : Budget} {s : Settings α} (hb : b.Limited s) (hb' : b'.Limited s)
  (hle : b'.iterations ≤ b.iterations)

include hb hb' hle

omit [Scalar α] in
/-- A budget of which less was spent allows what another one allows, unless it is too late. -/
theorem Budget.Limited.allows {elapsed elapsed' : Nat}
    (htime : s.timeLimit = none ∨ elapsed' ≤ elapsed) (h : b.allows elapsed = true) :
    b'.allows elapsed' = true := by
  unfold Limited at hb hb'
  rw [hb] at h
  rw [hb']
  cases hlimit : s.timeLimit with
  | none =>
    simp only [Budget.allows, Budget.isExhausted, Budget.ofSettings, hlimit, Bool.and_true,
      Bool.and_eq_true, Bool.not_eq_true', decide_eq_false_iff_not, decide_eq_true_iff] at h ⊢
    omega
  | some limit =>
    rw [hlimit] at htime
    have hle' : elapsed' ≤ elapsed := htime.resolve_left (Option.some_ne_none _)
    simp only [Budget.allows, Budget.isExhausted, Budget.ofSettings, hlimit, Bool.and_eq_true,
      Bool.not_eq_true', decide_eq_false_iff_not, decide_eq_true_iff] at h ⊢
    omega

omit [Scalar α] in
theorem Budget.Limited.isExhausted_spend (h : b.spend.isExhausted = false) :
    b'.spend.isExhausted = false := by
  unfold Limited at hb hb'
  rw [hb] at h
  rw [hb']
  have hlt : ¬s.iterationCeiling < b.iterations + 1 := of_decide_eq_false h
  refine decide_eq_false ?_
  show ¬s.iterationCeiling < b'.iterations + 1
  omega

end

/-- A visit keeps the limits. -/
theorem limited_of_visit {s : Settings α} {v : Visit α} (h : visit search elapsed σ node = .ok v)
    (hlimited : σ.budget.Limited s) : v.state.budget.Limited s := by
  rcases spends_of_visit h with ⟨hsame, -⟩ | hspent
  · rw [hsame]
    exact hlimited
  · rw [hspent]
    exact hlimited.spend

/-- A visit spends one iteration at most. -/
theorem iterations_of_visit {v : Visit α} (h : visit search elapsed σ node = .ok v) :
    σ.budget.iterations ≤ v.state.budget.iterations ∧
      v.state.budget.iterations ≤ σ.budget.iterations + 1 := by
  rcases spends_of_visit h with ⟨hsame, -⟩ | hspent
  · rw [hsame]
    exact ⟨le_refl _, Nat.le_succ _⟩
  · rw [hspent]
    exact ⟨Nat.le_succ _, le_refl _⟩

/-- Along every schedule the budget has the limits of the settings. -/
theorem Run.limited_of_reaches {warmStart : Option (Array α)} {start r : Run α}
    (hstart : search.start warmStart = .ok start) (h : Reaches search start r) :
    r.state.budget.Limited search.settings := by
  refine invariant_of_reaches (P := fun r => r.state.budget.Limited search.settings)
    (fun hstep hr => ?_) h ?_
  · obtain ⟨before, after, node, elapsed, v, -, hvisit, rfl⟩ := hstep.exists_visit
    rw [state_absorb]
    exact limited_of_visit hvisit hr
  · rw [(Search.start_eq_ok hstart).2.1.budget]
    rfl

/-! ## Runs to the end -/

/-- A run whose visits give no errors gets to its end, and keeps what every visit keeps. -/
theorem run_ok {P : Run α → Prop}
    (hstep : ∀ {r : Run α} {node : Node α} {rest : List (Node α)} (elapsed : Nat), P r →
      r.pending = node :: rest → ∃ v, visit search elapsed r.state node = .ok v ∧
        P (r.absorb rest v)) (clock : Nat → Nat) {r : Run α} (hr : P r) :
    ∃ s, run search clock r = .ok s ∧ P s ∧ s.pending = [] := by
  fun_induction run search clock r with
  | case1 r e hfail =>
    unfold Run.step at hfail
    split at hfail
    · cases hfail
    · rename_i node rest hpending
      obtain ⟨v, hv, -⟩ := hstep (clock r.visits) hr hpending
      rw [hv] at hfail
      cases hfail
  | case2 r hdone => exact ⟨r, rfl, hr, Run.pending_of_step_eq_ok_none hdone⟩
  | case3 r next hnext _ ih =>
    obtain ⟨node, rest, v, hpending, hv, rfl⟩ := Run.step_eq_ok_some hnext
    obtain ⟨w, hw, hP⟩ := hstep (clock r.visits) hr hpending
    rw [hv] at hw
    rw [Except.ok.inj hw] at ih ⊢
    exact ih hP

end BranchBound
