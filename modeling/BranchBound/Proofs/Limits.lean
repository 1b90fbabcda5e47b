import BranchBound.Proofs.Simulation

/-!
# Limits

Two searches that differ in the limits of their budgets only. As long as the budget of the first one
allows another visit and the other one agrees, their visits are alike (`exists_alike_visit`). Once it
allows none, it allows none ever after, and what is pending is closed without a trace
(`run_of_stalled`).

So the two runs are alike up to the end of one of them, or up to where the first one stalls: there
the other one has the same calls, the same scoreboard and the same nodes pending
(`exists_fork`). What it does from there on only adds calls and improves the incumbent
(`Run.Extends`).
-/

namespace BranchBound

variable {α : Type}

/-- The search with other limits on its iterations. -/
def Search.withLimits (search : Search α) (maxIterations ceiling : Nat) : Search α :=
  { search with
    settings := { search.settings with maxIterations, iterationCeiling := ceiling } }

/-! ## Alike -/

/-- States that differ in the limits of their budgets at most. -/
structure State.Alike (σ τ : State α) : Prop where
  board : σ.board = τ.board
  visited : σ.visited = τ.visited
  iterations : σ.budget.iterations = τ.budget.iterations

/-- Visits that leave the same behind, and made the same calls. -/
structure Visit.Alike (v w : Visit α) : Prop where
  state : v.state.Alike w.state
  children : v.outcome.children = w.outcome.children
  isExhaustive : v.outcome.isExhaustive = w.outcome.isExhaustive
  calls : v.events.filterMap Event.call? = w.events.filterMap Event.call?

/-- Runs that have the same to do, and made the same calls. -/
structure Run.Alike (r s : Run α) : Prop where
  pending : r.pending = s.pending
  state : r.state.Alike s.state
  complete : r.complete = s.complete
  calls : callsOf r.journal = callsOf s.journal

namespace State.Alike

variable {σ τ : State α}

protected theorem symm (h : σ.Alike τ) : τ.Alike σ :=
  ⟨h.board.symm, h.visited.symm, h.iterations.symm⟩

theorem marked (h : σ.Alike τ) (node : Node α) : (σ.marked node).Alike (τ.marked node) :=
  ⟨h.board, congrArg (fun visited => (visited.mark node).2) h.visited, h.iterations⟩

theorem asked (h : σ.Alike τ) (node : Node α) : (σ.asked node).Alike (τ.asked node) :=
  ⟨congrArg Scoreboard.countSolved h.board, (h.marked node).visited, h.iterations⟩

theorem counted (h : σ.Alike τ) (node : Node α) : (σ.counted node).Alike (τ.counted node) :=
  ⟨(h.asked node).board, (h.marked node).visited, congrArg (· + 1) h.iterations⟩

theorem offered [Scalar α] (h : σ.Alike τ) (node : Node α) (x : Array α) (objective : α) :
    (σ.offered node x objective).Alike (τ.offered node x objective) :=
  ⟨congrArg (fun board => (board.countSolved.offer x objective).2) h.board,
    (h.marked node).visited, (h.counted node).iterations⟩

end State.Alike

theorem Run.Alike.absorb {r s : Run α} (h : r.Alike s) {rest : List (Node α)} {v w : Visit α}
    (hv : v.Alike w) : (r.absorb rest v).Alike (s.absorb rest w) where
  pending := by rw [pending_absorb, pending_absorb, hv.children]
  state := by
    rw [state_absorb, state_absorb]
    exact hv.state
  complete := by rw [complete_absorb, complete_absorb, h.complete, hv.isExhaustive]
  calls := by rw [journal_absorb, journal_absorb, callsOf_append, callsOf_append, h.calls, hv.calls]

variable [Scalar α] {search : Search α}

/-! ## Visits -/

/-- Two budgets that allow the next visit or not, and an iteration in it or not. -/
structure Budget.Agrees (b c : Budget) (elapsed elapsed' : Nat) : Prop where
  allows : b.allows elapsed = c.allows elapsed'
  exhausted : b.spend.isExhausted = c.spend.isExhausted

section

variable {elapsed elapsed' : Nat} {σ τ : State α} {node : Node α}

omit [Scalar α] in
/-- Whether a report on progress fails does not depend on the state. -/
theorem progress_ok_of_ok {report : List (Event α)}
    (h : Visit.progress search elapsed σ = .ok report) (elapsed' : Nat) (τ : State α) :
    ∃ report', Visit.progress search elapsed' τ = .ok report' := by
  unfold Visit.progress at h ⊢
  split
  · exact ⟨_, rfl⟩
  · split
    · simp_all
    · split
      · exact ⟨_, rfl⟩
      · exact ⟨_, rfl⟩

theorem Visit.Asks.alike {answer : Answer α} {events : List (Event α)} (h : σ.Alike τ)
    (hagrees : σ.budget.Agrees τ.budget elapsed elapsed')
    (asks : Visit.Asks search elapsed σ node answer events) :
    ∃ events', Visit.Asks search elapsed' τ node answer events' := by
  obtain ⟨report, hreport, -⟩ := asks.reported
  obtain ⟨report', hreport'⟩ := progress_ok_of_ok hreport elapsed' (τ.asked node)
  refine ⟨_, hagrees.allows ▸ asks.allowed, h.visited ▸ asks.isNew, h.board ▸ asks.promising, ?_,
    report', hreport', rfl⟩
  rw [← h.board]
  exact asks.answered

theorem Visit.Takes.alike {answer : Answer α} {events : List (Event α)} (h : σ.Alike τ)
    (hagrees : σ.budget.Agrees τ.budget elapsed elapsed')
    (takes : Visit.Takes search elapsed σ node answer events) :
    ∃ events', Visit.Takes search elapsed' τ node answer events' := by
  obtain ⟨events', asks⟩ := takes.toAsks.alike h hagrees
  exact ⟨events', asks, takes.feasible, hagrees.exhausted ▸ takes.affordable, takes.usable⟩

/-- From states that are alike, under budgets that agree, the relaxation is asked the same. -/
theorem calls_of_alike {v w : Visit α} (h : σ.Alike τ)
    (hagrees : σ.budget.Agrees τ.budget elapsed elapsed')
    (hv : visit search elapsed σ node = .ok v) (hw : visit search elapsed' τ node = .ok w) :
    v.events.filterMap Event.call? = w.events.filterMap Event.call? := by
  have hcalls := calls_of_visit hv
  have hcalls' := calls_of_visit hw
  have hasks : σ.asks search elapsed node = τ.asks search elapsed' node := by
    unfold State.asks
    rw [hagrees.allows, h.visited, h.board]
  rw [hasks, h.board] at hcalls
  by_cases hτ : τ.asks search elapsed' node = true
  · rw [if_pos hτ] at hcalls hcalls'
    obtain ⟨⟨answer, hanswer, hevents⟩, -⟩ := hcalls
    obtain ⟨⟨answer', hanswer', hevents'⟩, -⟩ := hcalls'
    rw [hanswer] at hanswer'
    rw [hevents, hevents', Except.ok.inj hanswer']
  · rw [if_neg hτ] at hcalls hcalls'
    rw [hcalls.1, hcalls'.1]

/-- From states that are alike, under budgets that agree, visits are alike. -/
theorem exists_alike_visit {v : Visit α} (h : σ.Alike τ)
    (hagrees : σ.budget.Agrees τ.budget elapsed elapsed')
    (hv : visit search elapsed σ node = .ok v) :
    ∃ w, visit search elapsed' τ node = .ok w ∧ v.Alike w := by
  -- calls apart, a visit and its counterpart are seen to be alike from the courses they take
  suffices hcourse : ∃ w, Visit.Course search elapsed' τ node w ∧ v.state.Alike w.state ∧
      v.outcome.children = w.outcome.children ∧
      v.outcome.isExhaustive = w.outcome.isExhaustive by
    obtain ⟨w, hw, hstate, hchildren, hexhaustive⟩ := hcourse
    have hw := Visit.visit_eq_ok_iff.mpr hw
    exact ⟨w, hw, hstate, hchildren, hexhaustive, calls_of_alike h hagrees hv hw⟩
  cases Visit.course_of_visit hv with
  | outOfBudget hnot => exact ⟨_, .outOfBudget (hagrees.allows ▸ hnot), h, rfl, rfl⟩
  | seenBefore allowed hseen =>
    exact ⟨_, .seenBefore (hagrees.allows ▸ allowed) (h.visited ▸ hseen), h.marked node, rfl, rfl⟩
  | unpromising allowed isNew hnot =>
    exact ⟨_, .unpromising (hagrees.allows ▸ allowed) (h.visited ▸ isNew) (h.board ▸ hnot),
      h.marked node, rfl, rfl⟩
  | noPoint asks hnone =>
    obtain ⟨events', asks'⟩ := asks.alike h hagrees
    exact ⟨_, .noPoint asks' hnone, h.asked node, rfl, rfl⟩
  | overCeiling asks feasible hover =>
    obtain ⟨events', asks'⟩ := asks.alike h hagrees
    exact ⟨_, .overCeiling asks' feasible (hagrees.exhausted ▸ hover), h.counted node, rfl, rfl⟩
  | unusable asks feasible affordable hnot =>
    obtain ⟨events', asks'⟩ := asks.alike h hagrees
    exact ⟨_, .unusable asks' feasible (hagrees.exhausted ▸ affordable) hnot, h.counted node, rfl,
      rfl⟩
  | whole takes hnone =>
    obtain ⟨events', takes'⟩ := takes.alike h hagrees
    exact ⟨_, .whole takes' hnone, h.offered node _ _, rfl, rfl⟩
  | dominated takes hbranching hnot =>
    obtain ⟨events', takes'⟩ := takes.alike h hagrees
    exact ⟨_, .dominated takes' hbranching (h.board ▸ hnot), h.counted node, rfl, rfl⟩
  | split takes hbranching improves hsplit =>
    obtain ⟨events', takes'⟩ := takes.alike h hagrees
    exact ⟨_, .split takes' hbranching (h.board ▸ improves) hsplit, h.counted node, rfl, rfl⟩

/-- A visit fails if one that is alike does. -/
theorem visit_error_of_alike {e : Error α} (h : σ.Alike τ)
    (hagrees : σ.budget.Agrees τ.budget elapsed elapsed')
    (he : visit search elapsed σ node = .error e) :
    ∃ e', visit search elapsed' τ node = .error e' := by
  cases hw : visit search elapsed' τ node with
  | error e' => exact ⟨e', rfl⟩
  | ok w =>
    obtain ⟨v, hv, -⟩ := exists_alike_visit h.symm ⟨hagrees.1.symm, hagrees.2.symm⟩ hw
    rw [he] at hv
    cases hv

end

/-! ## Stalled runs -/

namespace Run

/-- A run that does nothing any more: there is nothing to do, or the budget allows nothing, at
whatever time. -/
def Stalled (r : Run α) : Prop :=
  r.pending = [] ∨ ∀ elapsed, r.state.budget.allows elapsed = false

/-- A run that stalls closes what is pending, and calls and changes nothing. -/
theorem Stalled.run_ok {r : Run α} (h : r.Stalled) (search : Search α) (clock : Nat → Nat) :
    ∃ s, run search clock r = .ok s ∧ s.state = r.state ∧ callsOf s.journal = callsOf r.journal ∧
      s.complete = (r.complete && r.pending.isEmpty) := by
  rcases h with hnil | hnever
  · refine ⟨r, run_of_pending_eq_nil hnil, rfl, rfl, ?_⟩
    rw [hnil, List.isEmpty_nil, Bool.and_true]
  · generalize hpending : r.pending = nodes
    induction nodes generalizing r with
    | nil =>
      refine ⟨r, run_of_pending_eq_nil hpending, rfl, rfl, ?_⟩
      rw [List.isEmpty_nil, Bool.and_true]
    | cons node rest ih =>
      have hv : visit search (clock r.visits) r.state node =
          .ok (.close r.state [] node .budgetExceeded) :=
        Visit.visit_eq_ok_iff.mpr (.outOfBudget (hnever _))
      obtain ⟨s, hs, hstate, hcalls, hcomplete⟩ :=
        ih (r := r.absorb rest (.close r.state [] node .budgetExceeded))
          (by rw [state_absorb]; exact hnever) (by rw [pending_absorb]; rfl)
      refine ⟨s, (run_of_visit hpending hv).trans hs, ?_, ?_, ?_⟩
      · rw [hstate, state_absorb]
        rfl
      · rw [hcalls, journal_absorb, callsOf_append]
        exact List.append_nil _
      · -- the node that was left out makes up for those after it
        rw [hcomplete, complete_absorb]
        show (r.complete && false && rest.isEmpty) = (r.complete && false)
        rw [Bool.and_false, Bool.false_and]

end Run

/-! ## Forks -/

/-- A budget with given limits and without a time limit. -/
structure Budget.Has (b : Budget) (maxIterations ceiling : Nat) : Prop where
  maxIterations : b.maxIterations = maxIterations
  ceiling : b.ceiling = ceiling
  timeLimit : b.timeLimit = none

/-- Whether the first limits allow an iteration only where the second ones do, and both agree then
on whether it can be counted. -/
def Tighter (maxIterations ceiling maxIterations' ceiling' : Nat) : Prop :=
  ∀ i, i ≤ ceiling → i < maxIterations → i < maxIterations' ∧ i ≤ ceiling' ∧
    (i < ceiling ↔ i < ceiling')

section

variable {b b' : Budget} {n c n' c' : Nat}

theorem Budget.Has.allows_eq (h : b.Has n c) (elapsed : Nat) :
    b.allows elapsed = decide (b.iterations ≤ c ∧ b.iterations < n) := by
  unfold allows isExhausted
  rw [h.maxIterations, h.ceiling, h.timeLimit, Bool.and_true, Bool.decide_and, ← decide_not]
  simp only [Nat.not_lt]

theorem Budget.Has.isExhausted_spend (h : b.Has n c) :
    b.spend.isExhausted = decide (c ≤ b.iterations) := by
  show decide (b.ceiling < b.iterations + 1) = _
  rw [h.ceiling]
  exact decide_eq_decide.mpr Nat.lt_succ_iff

theorem Budget.Has.agrees (h : b.Has n c) (h' : b'.Has n' c')
    (hiterations : b.iterations = b'.iterations) (htighter : Tighter n c n' c') {elapsed : Nat}
    (hallows : b.allows elapsed = true) (now now' : Nat) : b.Agrees b' now now' := by
  rw [h.allows_eq, decide_eq_true_iff] at hallows
  obtain ⟨hlt, hle, hiff⟩ := htighter _ hallows.1 hallows.2
  constructor
  · rw [h.allows_eq, h'.allows_eq, ← hiterations]
    exact decide_eq_decide.mpr (iff_of_true hallows ⟨hle, hlt⟩)
  · rw [h.isExhausted_spend, h'.isExhausted_spend, ← hiterations]
    exact decide_eq_decide.mpr (by rw [← not_lt, ← not_lt, hiff])

end

theorem has_of_visit {elapsed : Nat} {σ : State α} {node : Node α} {v : Visit α} {n c : Nat}
    (h : visit search elapsed σ node = .ok v) (hb : σ.budget.Has n c) : v.state.budget.Has n c := by
  rcases spends_of_visit h with ⟨hsame, -⟩ | hspent
  · rw [hsame]
    exact hb
  · rw [hspent]
    exact ⟨hb.maxIterations, hb.ceiling, hb.timeLimit⟩

/-- A step fails if that of a run that is alike does. -/
theorem step_error_of_alike {r r' : Run α} {elapsed elapsed' : Nat} {e : Error α} (h : r.Alike r')
    (hagrees : r.state.budget.Agrees r'.state.budget elapsed elapsed')
    (hfail : r.step search elapsed = .error e) : ∃ e', r'.step search elapsed' = .error e' := by
  unfold Run.step at hfail ⊢
  rw [← h.pending]
  split at hfail
  · cases hfail
  · rename_i node rest hpending
    cases hv : visit search elapsed r.state node with
    | ok v =>
      rw [hv] at hfail
      cases hfail
    | error e₀ =>
      obtain ⟨e', he'⟩ := visit_error_of_alike h.state hagrees hv
      rw [he']
      exact ⟨e', rfl⟩

omit [Scalar α] in
/-- As long as the run with the tighter limits does not stall, both budgets agree. -/
theorem agrees_of_not_stalled {n c n' c' : Nat} (htighter : Tighter n c n' c') {r r' : Run α}
    (h : r.Alike r') (hr : r.state.budget.Has n c) (hr' : r'.state.budget.Has n' c')
    (hnot : ¬r.Stalled) (now now' : Nat) :
    r.state.budget.Agrees r'.state.budget now now' := by
  obtain ⟨-, hnever⟩ := not_or.mp hnot
  obtain ⟨elapsed, hallows⟩ := not_forall.mp hnever
  exact hr.agrees hr' h.state.iterations htighter (Bool.not_eq_false _ ▸ hallows) now now'

/-- Of two runs that are alike, the one with the tighter limits comes to its end or stalls, and the
other one passes by there; or both fail. -/
theorem exists_fork {n c n' c' : Nat} (htighter : Tighter n c n' c') (clock clock' : Nat → Nat)
    {r r' : Run α} (h : r.Alike r') (hr : r.state.budget.Has n c)
    (hr' : r'.state.budget.Has n' c') :
    (∃ e e', run search clock r = .error e ∧ run search clock' r' = .error e') ∨
    ∃ q q', q.Alike q' ∧ q.Stalled ∧ Run.Reaches search r q ∧ Run.Reaches search r' q' ∧
      run search clock r = run search clock q ∧ run search clock' r' = run search clock' q' := by
  -- at each state of the first run it stalls there, or both make a visit
  fun_induction run search clock r generalizing r' with
  | case1 r e hfail =>
    by_cases hstalled : r.Stalled
    · refine Or.inr ⟨r, r', h, hstalled, .refl, .refl, ?_, rfl⟩
      rw [run_eq, hfail]
    · obtain ⟨e', he'⟩ := step_error_of_alike h
        (agrees_of_not_stalled htighter h hr hr' hstalled _ (clock' r'.visits)) hfail
      refine Or.inl ⟨e, e', rfl, ?_⟩
      rw [run_eq, he']
  | case2 r hdone =>
    have hnil := Run.pending_of_step_eq_ok_none hdone
    refine Or.inr ⟨r, r', h, Or.inl hnil, .refl, .refl, ?_, rfl⟩
    exact (run_of_pending_eq_nil hnil).symm
  | case3 r next hnext _ ih =>
    by_cases hstalled : r.Stalled
    · refine Or.inr ⟨r, r', h, hstalled, .refl, .refl, ?_, rfl⟩
      rw [run_eq search clock r, hnext]
    · obtain ⟨node, rest, v, hpending, hv, rfl⟩ := Run.step_eq_ok_some hnext
      obtain ⟨w, hw, halike⟩ := exists_alike_visit h.state
        (agrees_of_not_stalled htighter h hr hr' hstalled _ (clock' r'.visits)) hv
      have hpending' : r'.pending = node :: rest := h.pending.symm.trans hpending
      have hr := has_of_visit hv hr
      have hr' := has_of_visit hw hr'
      rw [← Run.state_absorb r rest v] at hr
      rw [← Run.state_absorb r' rest w] at hr'
      rw [run_of_visit hpending' hw]
      rcases ih (h.absorb halike) hr hr' with herrors |
        ⟨q, q', hq, hstalled, hreaches, hreaches', hrun, hrun'⟩
      · exact Or.inl herrors
      · exact Or.inr ⟨q, q', hq, hstalled, .head (Run.advances_of_visit hpending hv) hreaches,
          .head (Run.advances_of_visit hpending' hw) hreaches', hrun, hrun'⟩

/-! ## What comes after -/

/-- A run that made the calls of another one and maybe more, with the same incumbent or a better
one. -/
structure Run.Extends (sense : Sense) (r s : Run α) : Prop where
  calls : callsOf r.journal <+: callsOf s.journal
  best : ∀ best, r.state.board.best = some best → ∃ best', s.state.board.best = some best' ∧
    (best' = best ∨ sense.better best'.objective best.objective = true)

/-- Every schedule extends the run that it goes on from. -/
theorem Run.extends_of_reaches [Lawful α] {r s : Run α}
    (hsense : r.state.board.sense = search.problem.sense) (h : Reaches search r s) :
    r.Extends search.problem.sense s := by
  suffices hboth : s.state.board.sense = search.problem.sense ∧
      r.Extends search.problem.sense s from hboth.2
  induction h with
  | refl => exact ⟨hsense, List.prefix_refl _, fun best hbest => ⟨best, hbest, Or.inl rfl⟩⟩
  | tail _ hlast ih =>
    obtain ⟨hsense, hcalls, hbest⟩ := ih
    obtain ⟨before, after, node, elapsed, v, -, hvisit, rfl⟩ := hlast.exists_visit
    refine ⟨?_, ?_, fun best hb => ?_⟩
    · rw [state_absorb]
      exact (board_of_visit hvisit).1.trans hsense
    · rw [journal_absorb, callsOf_append]
      exact hcalls.trans (List.prefix_append _ _)
    · obtain ⟨mid, hmid, hcases⟩ := hbest best hb
      obtain ⟨last, hlast, hcases'⟩ := best_of_visit hsense hvisit hmid
      rw [state_absorb]
      refine ⟨last, hlast, ?_⟩
      rcases hcases' with rfl | hbetter
      · exact hcases
      · rcases hcases with rfl | hbetter'
        · exact Or.inr hbetter
        · exact Or.inr (Sense.better_trans hbetter hbetter')

/-! ## Passing by -/

/-- A run from `r` passes by the end `s` of one with tighter limits `n` and `c`, at `q`: by then it
made the same calls and has the same scoreboard, and nothing is pending unless the limits of `s`
were reached. -/
structure Run.Passes (search : Search α) (clock : Nat → Nat) (n c : Nat) (r s q : Run α) :
    Prop where
  reaches : Reaches search r q
  run_eq : run search clock r = run search clock q
  state : s.state.Alike q.state
  calls : callsOf s.journal = callsOf q.journal
  complete : s.complete = (q.complete && q.pending.isEmpty)
  limited : q.pending = [] ∨ ¬(s.state.budget.iterations ≤ c ∧ s.state.budget.iterations < n)

/-- A run with tighter limits comes to an end that the other one passes by, or both fail. -/
theorem exists_passes {n c n' c' : Nat} (htighter : Tighter n c n' c') (clock clock' : Nat → Nat)
    {r r' : Run α} (h : r.Alike r') (hr : r.state.budget.Has n c)
    (hr' : r'.state.budget.Has n' c') :
    (∃ e e', run search clock r = .error e ∧ run search clock' r' = .error e') ∨
    ∃ s q, run search clock r = .ok s ∧ Run.Passes search clock' n c r' s q := by
  rcases exists_fork htighter clock clock' h hr hr' with herrors |
    ⟨q, q', halike, hstalled, hreaches, hreaches', hrun, hrun'⟩
  · exact Or.inl herrors
  · obtain ⟨s, hs, hstate, hcalls, hcomplete⟩ := hstalled.run_ok search clock
    refine Or.inr ⟨s, q', hrun.trans hs, hreaches', hrun', ?_, hcalls.trans halike.calls, ?_, ?_⟩
    · rw [hstate]
      exact halike.state
    · rw [hcomplete, halike.complete, halike.pending]
    · rw [hstate, ← halike.pending]
      refine hstalled.imp_right fun hnever => ?_
      have hq : q.state.budget.Has n c := by
        refine Run.invariant_of_reaches (P := fun q => q.state.budget.Has n c)
          (fun hstep hb => ?_) hreaches hr
        obtain ⟨before, after, node, elapsed, v, -, hvisit, rfl⟩ := hstep.exists_visit
        rw [Run.state_absorb]
        exact has_of_visit hvisit hb
      have hnot := hnever 0
      rw [hq.allows_eq] at hnot
      exact of_decide_eq_false hnot

/-! ## Searches with other limits -/

namespace Search

variable {warmStart : Option (Array α)} {n c n' c' : Nat}

/-- A run does not look at the limits of the settings, but at those of its budget. -/
theorem run_withLimits (n c : Nat) (clock : Nat → Nat) (r : Run α) :
    run (search.withLimits n c) clock r = run search clock r := by
  have hstep : ∀ (elapsed : Nat) (r : Run α),
      r.step (search.withLimits n c) elapsed = r.step search elapsed := fun _ _ => rfl
  exact run_congr hstep clock r

theorem has_start (htime : search.settings.timeLimit = none) {r : Run α}
    (h : (search.withLimits n c).start warmStart = .ok r) : r.state.budget.Has n c := by
  rw [(start_eq_ok h).2.1.budget]
  exact ⟨rfl, rfl, htime⟩

/-- Searches start alike with other limits. -/
theorem exists_alike_start (n' c' : Nat) {r : Run α}
    (h : (search.withLimits n c).start warmStart = .ok r) :
    ∃ r', (search.withLimits n' c').start warmStart = .ok r' ∧ r.Alike r' := by
  obtain ⟨σ, events, hseeds, rfl⟩ := start_eq_ok_iff.mp h
  cases hseeds with
  | cold =>
    exact ⟨_, start_eq_ok_iff.mpr ⟨_, _, .cold, rfl⟩, rfl, ⟨rfl, rfl, rfl⟩, rfl, rfl⟩
  | ignored haccepts =>
    exact ⟨_, start_eq_ok_iff.mpr ⟨_, _, .ignored haccepts, rfl⟩, rfl, ⟨rfl, rfl, rfl⟩, rfl, rfl⟩
  | accepted haccepts =>
    exact ⟨_, start_eq_ok_iff.mpr ⟨_, _, .accepted haccepts, rfl⟩, rfl, ⟨rfl, rfl, rfl⟩, rfl, rfl⟩

/-- Of searches with tighter and with looser limits, the second one passes by the end of the first, or
both fail. -/
theorem exists_passes_of_start (htighter : Tighter n c n' c')
    (htime : search.settings.timeLimit = none) (clock clock' : Nat → Nat) {r r' : Run α}
    (h : (search.withLimits n c).start warmStart = .ok r)
    (h' : (search.withLimits n' c').start warmStart = .ok r') :
    (∃ e e', run (search.withLimits n c) clock r = .error e ∧
      run (search.withLimits n' c') clock' r' = .error e') ∨
    ∃ s q, run (search.withLimits n c) clock r = .ok s ∧ s.state.board.sense = search.problem.sense ∧
      Run.Passes search clock' n c r' s q := by
  obtain ⟨_, hstart, halike⟩ := exists_alike_start n' c' h
  obtain rfl := Except.ok.inj (hstart.symm.trans h')
  rcases exists_passes htighter clock clock' halike (has_start htime h) (has_start htime h') with
    ⟨e, e', hrun, hrun'⟩ | ⟨s, q, hrun, hpasses⟩
  · exact Or.inl ⟨e, e', (run_withLimits n c clock r).trans hrun,
      (run_withLimits n' c' clock' _).trans hrun'⟩
  · have hrun := (run_withLimits n c clock r).trans hrun
    have hcoherent : s.Coherent (search.withLimits n c) :=
      Run.invariant_of_reaches (fun hstep hr => hr.of_advances hstep) (reaches_of_run hrun).1
        (Run.coherent_start h)
    exact Or.inr ⟨s, q, hrun, hcoherent.sense, hpasses⟩

end Search

end BranchBound
