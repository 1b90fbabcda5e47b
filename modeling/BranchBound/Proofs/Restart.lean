import BranchBound.Proofs.Heeding

/-!
# Starting from the result

A search that is started from the point that it found finds it again (`restart_confirms`): the new
run replaces no incumbent, and asks about some of the same nodes. The relaxation heeds the cutoff;
the gaps may be any.

Along the first run one incumbent follows another, each of them found within the threshold of the
one before it. So the final one surpasses all of them (`Run.tops_of_reaches`): from the
beginning it prunes and excludes all that they did, and no point of the first run beats it. The new
run has the final incumbent all the time. It follows the first one (`Run.Repeats`): its pending
nodes are the last ones of the first run, whose nodes before them it skips.
-/

namespace BranchBound

open Lawful

variable {α : Type} [Scalar α] [Lawful α] {search : Search α} {R : Node α → Answer α}

/-! ## Incumbents of a run -/

/-- Whether an incumbent follows another one of a search: it is the same, or surpasses it. -/
def Search.Follows (search : Search α) (new old : Incumbent α) : Prop :=
  new = old ∨ search.criteria.Surpasses new.objective old.objective

theorem Search.Follows.trans {newer new old : Incumbent α} (h : search.Follows newer new)
    (h' : search.Follows new old) : search.Follows newer old := by
  rcases h with rfl | h
  · exact h'
  · rcases h' with rfl | h'
    · exact Or.inr h
    · exact Or.inr (h'.of_better h.better)

section

variable {elapsed : Nat} {σ : State α} {node : Node α} {v : Visit α}

/-- The incumbent after a visit follows the one before: a point is only taken within the cutoff. -/
theorem follows_of_visit (hR : search.relaxation.Heeds search.problem R)
    (hsense : σ.board.sense = search.problem.sense) (h : visit search elapsed σ node = .ok v)
    {old : Incumbent α} (hold : σ.board.best = some old) :
    ∃ new, v.state.board.best = some new ∧ search.Follows new old := by
  obtain ⟨new, hnew, hcases⟩ := best_of_visit hsense h hold
  refine ⟨new, hnew, hcases.imp_right fun hbetter => ⟨hbetter, ?_⟩⟩
  rcases best_cases_of_visit h hnew with hsame | ⟨answer, events, takes, -, -, rfl⟩
  · obtain rfl := Option.some.inj (hold.symm.trans hsame)
    rw [Sense.not_better_self] at hbetter
    cases hbetter
  · obtain ⟨rfl, -, hcut⟩ := (hR.isFeasible_iff takes.toAsks).mp takes.feasible
    have hbest : σ.board.bestValue = some old.objective := congrArg (Option.map _) hold
    rw [hbest, Criteria.excludes_some] at hcut
    exact hcut

end

namespace Run

/-- The final incumbent of a run follows every one on the way. -/
theorem follows_of_reaches (hR : search.relaxation.Heeds search.problem R) {r s : Run α}
    (hr : r.Coherent search) (h : Reaches search r s) {old : Incumbent α}
    (hold : r.state.board.best = some old) :
    ∃ new, s.state.board.best = some new ∧ search.Follows new old := by
  refine (invariant_of_reaches (P := fun s => s.Coherent search ∧
    ∃ new, s.state.board.best = some new ∧ search.Follows new old)
    (fun hstep ⟨hcoherent, mid, hmid, hfollows⟩ => ⟨hcoherent.of_advances hstep, ?_⟩) h
    ⟨hr, old, hold, Or.inl rfl⟩).2
  obtain ⟨before, after, node, elapsed, v, -, hvisit, rfl⟩ := hstep.exists_visit
  obtain ⟨new, hnew, hfollows'⟩ := follows_of_visit hR hcoherent.sense hvisit hmid
  rw [state_absorb]
  exact ⟨new, hnew, hfollows'.trans hfollows⟩

end Run

/-! ## The final incumbent from the beginning -/

/-- Whether an incumbent follows the one of a scoreboard, if there is one. -/
def Search.Tops (search : Search α) (final : Incumbent α) (board : Scoreboard α) : Prop :=
  ∀ old, board.best = some old → search.Follows final old

namespace Search.Tops

variable {final : Incumbent α} {board : Scoreboard α} {objective : α}

theorem mayImprove (h : search.Tops final board)
    (ha : Settings.Usable search.settings.absoluteGap)
    (hfinal : search.criteria.mayImprove objective (some final.objective) = true) :
    search.criteria.mayImprove objective board.bestValue = true := by
  unfold Scoreboard.bestValue
  cases hbest : board.best with
  | none => rfl
  | some old =>
    rcases h old hbest with rfl | hsurpasses
    · exact hfinal
    · exact hsurpasses.mayImprove ha hfinal

theorem not_excludes (h : search.Tops final board)
    (ha : Settings.Usable search.settings.absoluteGap)
    (hfinal : search.criteria.excludes (some final.objective) objective = false) :
    search.criteria.excludes board.bestValue objective = false := by
  unfold Scoreboard.bestValue
  cases hbest : board.best with
  | none => rfl
  | some old =>
    rw [Criteria.excludes_some] at hfinal
    rw [Option.map_some, Criteria.excludes_some]
    rcases h old hbest with rfl | hsurpasses
    · exact hfinal
    · exact hsurpasses.not_better_threshold ha hfinal

/-- What was offered does not beat the final incumbent. -/
theorem not_better_of_offer {x : Array α} (hsense : board.sense = search.problem.sense)
    (h : search.Tops final (board.offer x objective).2) :
    search.problem.sense.better objective final.objective = false := by
  cases hnan : Scalar.isNaN objective with
  | true =>
    rw [isNaN_eq, ← Bool.not_eq_false, Exact.isNaN_eq_false_iff, not_not] at hnan
    rw [Sense.better_iff, hnan, Sense.not_nan_better]
  | false =>
    obtain ⟨new, hnew, hnot⟩ := board.exists_best_offer (x := x) hnan
    rw [hsense] at hnot
    rcases h new hnew with rfl | hsurpasses
    · exact hnot
    · cases hbetter : search.problem.sense.better objective final.objective with
      | false => rfl
      | true =>
        rw [Sense.better_trans hbetter hsurpasses.better] at hnot
        cases hnot

end Search.Tops

theorem Run.tops_of_reaches (hR : search.relaxation.Heeds search.problem R) {r s : Run α}
    (hr : r.Coherent search) (h : Reaches search r s) {final : Incumbent α}
    (hfinal : s.state.board.best = some final) : search.Tops final r.state.board := by
  intro old hold
  obtain ⟨new, hnew, hfollows⟩ := follows_of_reaches hR hr h hold
  obtain rfl := Option.some.inj (hnew.symm.trans hfinal)
  exact hfollows

/-! ## Repeating a run -/

/-- What has to hold of a search for a restart to follow its run. -/
structure Search.Repeatable (search : Search α) (R : Node α → Answer α) : Prop where
  heeds : search.relaxation.Heeds search.problem R
  absoluteGap : Settings.Usable search.settings.absoluteGap
  timeLimit : search.settings.timeLimit = none
  logFrequency : search.settings.logFrequency ≠ 0
  known : ∀ var ∈ search.problem.integers, var < search.problem.size

namespace Run

/-- A run from the final incumbent of another one, which it follows: it keeps the incumbent, and all
that is pending is pending there too. -/
structure Repeats (search : Search α) (final : Incumbent α) (first again : Run α) : Prop where
  plainFirst : first.Plain search
  plainAgain : again.Plain search
  complete : again.complete = true
  noLonger : NoLonger again first
  best : again.state.board.best = some final
  improvements : again.state.board.improvements = 1
  pending : ∃ skipped, first.pending = skipped ++ again.pending

namespace Repeats

variable {final : Incumbent α} {first again next : Run α} {node : Node α} {rest : List (Node α)}
  {elapsed elapsed' : Nat} {v w : Visit α}

omit [Lawful α] in
theorem bestValue (h : Repeats search final first again) :
    again.state.board.bestValue = some final.objective := congrArg (Option.map _) h.best

section

variable (hs : search.Repeatable R) (h : Repeats search final first again)
  (htops : search.Tops final first.state.board)
  (hexhaustive : v.outcome.isExhaustive = true)
  (hv : visit search elapsed first.state node = .ok v)

include hs h htops hexhaustive hv

/-- The first run took every point that the new one gets. -/
theorem takes {answer : Answer α} {events : List (Event α)}
    (asks : Visit.Asks search elapsed' again.state node answer events)
    (hfeasible : answer.verdict.isFeasible = true) :
    ∃ events', Visit.Takes search elapsed first.state node answer events' := by
  obtain ⟨rfl, hpoint, hcut⟩ := (hs.heeds.isFeasible_iff asks).mp hfeasible
  have hpromising := asks.promising
  rw [h.bestValue] at hcut hpromising
  have hcut' := htops.not_excludes hs.absoluteGap hcut
  have hsame : ∀ {answer : Answer α} {events : List (Event α)},
      Visit.Asks search elapsed first.state node answer events → answer = R node := by
    intro answer events asks'
    have hanswer := hs.heeds.answer asks'
    rw [hpoint, hcut'] at hanswer
    exact hanswer
  cases Visit.course_of_visit hv with
  | outOfBudget => cases hexhaustive
  | overCeiling => cases hexhaustive
  | unusable => cases hexhaustive
  | seenBefore _ hseen =>
    rw [h.plainFirst.isNew node] at hseen
    cases hseen
  | unpromising _ _ hnot =>
    rw [htops.mayImprove hs.absoluteGap hpromising] at hnot
    cases hnot
  | noPoint asks' hnone =>
    rw [hsame asks', hpoint] at hnone
    cases hnone
  | whole takes | dominated takes | split takes =>
    have hanswer := hsame takes.toAsks
    subst hanswer
    exact ⟨_, takes⟩

/-- The new run can visit what the first one visits, within the same budget. -/
theorem exists_visit (hover : node.IsOver search.problem) (elapsed' : Nat) :
    ∃ w, visit search elapsed' again.state node = .ok w ∧ w.outcome.isExhaustive = true := by
  obtain ⟨w, hw⟩ : ∃ w, visit search elapsed' again.state node = .ok w := by
    refine visit_ok hs.logFrequency hover hs.known fun cutoff => ?_
    obtain ⟨answer, hanswer, -⟩ := hs.heeds again.state.board.solved node cutoff
    exact ⟨answer, hanswer⟩
  refine ⟨w, hw, isExhaustive_of_visit ?_ (fun asks hfeasible => ?_) hw⟩
  · exact h.plainFirst.limited.allows h.plainAgain.limited h.noLonger.iterations
      (Or.inl hs.timeLimit) (allows_of_isExhaustive hexhaustive hv)
  · obtain ⟨events, takes⟩ := h.takes hs htops hexhaustive hv asks hfeasible
    exact ⟨takes.usable, h.plainFirst.limited.isExhausted_spend h.plainAgain.limited
      h.noLonger.iterations takes.affordable⟩

/-- What the new run spends at a node the first one spent. -/
theorem spent (hw : visit search elapsed' again.state node = .ok w)
    (hspend : w.state.budget = again.state.budget.spend) :
    v.state.budget = first.state.budget.spend := by
  have hspent : ∀ {answer : Answer α} {events : List (Event α)},
      Visit.Asks search elapsed' again.state node answer events →
      answer.verdict.isFeasible = true → v.state.budget = first.state.budget.spend := by
    intro answer events asks hfeasible
    obtain ⟨events', takes⟩ := h.takes hs htops hexhaustive hv asks hfeasible
    rw [Visit.visit_eq_of_takes takes] at hv
    exact Visit.budget_of_ofPoint hv
  cases Visit.course_of_visit hw with
  | outOfBudget | seenBefore | unpromising | noPoint =>
    exact absurd hspend.symm (Budget.spend_ne _)
  | overCeiling asks hfeasible | unusable asks hfeasible => exact hspent asks hfeasible
  | whole takes | dominated takes | split takes => exact hspent takes.toAsks takes.feasible

/-- The new run keeps its incumbent, and has the children that the first run has, or none. -/
theorem keeps (hw : visit search elapsed' again.state node = .ok w)
    (hafter : search.Tops final v.state.board) : w.state.board.best = some final ∧
      w.state.board.improvements = 1 ∧
      (w.outcome.children = [] ∨ w.outcome.children = v.outcome.children) := by
  cases Visit.course_of_visit hw with
  | outOfBudget | seenBefore | unpromising | noPoint | overCeiling | unusable | dominated =>
    exact ⟨h.best, h.improvements, Or.inl rfl⟩
  | @whole answer events takes' hbranching =>
    obtain ⟨events', takes⟩ := h.takes hs htops hexhaustive hv takes'.toAsks takes'.feasible
    -- the first run offered the same point, and its final incumbent is as good
    rw [Visit.visit_eq_ok_iff.mpr (.whole takes hbranching)] at hv
    rw [← Except.ok.inj hv] at hafter
    have hsense : first.state.board.countSolved.sense = search.problem.sense :=
      h.plainFirst.coherent.sense
    have hnot := Search.Tops.not_better_of_offer hsense hafter
    have himproves : again.state.board.countSolved.improves
        (search.problem.objective answer.point) = false := by
      rw [← Bool.not_eq_true, Scoreboard.improves_iff]
      intro hall
      have hbetter := hall _ h.bestValue
      have hsense' : again.state.board.countSolved.sense = search.problem.sense :=
        h.plainAgain.coherent.sense
      rw [hsense', hnot] at hbetter
      cases hbetter
    have hoffer := Scoreboard.offer_of_not_improves (x := answer.point) himproves
    refine ⟨?_, ?_, Or.inl rfl⟩
    · show (again.state.board.countSolved.offer _ _).2.best = _
      rw [hoffer]
      exact h.best
    · show (again.state.board.countSolved.offer _ _).2.improvements = _
      rw [hoffer]
      exact h.improvements
  | @split answer events branching s takes' hbranching improves hsplit =>
    obtain ⟨events', takes⟩ := h.takes hs htops hexhaustive hv takes'.toAsks takes'.feasible
    rw [h.bestValue] at improves
    have himproves := htops.mayImprove hs.absoluteGap improves
    rw [Visit.visit_eq_ok_iff.mpr (.split takes hbranching himproves hsplit)] at hv
    rw [← Except.ok.inj hv]
    exact ⟨h.best, h.improvements, Or.inr rfl⟩

end

/-- A visit of the first run is repeated by the new one, or the node is one of those it skips. -/
theorem exists_of_visit (hs : search.Repeatable R) (h : Repeats search final first again)
    (htops : search.Tops final first.state.board) (hpending : first.pending = node :: rest)
    (hexhaustive : v.outcome.isExhaustive = true)
    (hv : visit search elapsed first.state node = .ok v)
    (hafter : search.Tops final v.state.board) (clock : Nat → Nat) :
    ∃ next, Repeats search final (first.absorb rest v) next ∧
      run search clock again = run search clock next := by
  obtain ⟨skipped, hsplit⟩ := h.pending
  rw [hpending] at hsplit
  cases skipped with
  | nil =>
    rw [List.nil_append] at hsplit
    have hover := h.plainFirst.coherent.isOver_head hpending
    obtain ⟨w, hw, hwe⟩ := h.exists_visit hs htops hexhaustive hv hover (clock again.visits)
    obtain ⟨hbest, himprovements, hchildren⟩ := h.keeps hs htops hexhaustive hv hw hafter
    refine ⟨again.absorb rest w, ⟨h.plainFirst.of_visit hpending hv,
      h.plainAgain.of_visit hsplit.symm hw, ?_, ?_, ?_, ?_, ?_⟩, run_of_visit hsplit.symm hw⟩
    · rw [complete_absorb, h.complete, hwe]
      rfl
    · refine h.noLonger.of_visits h.plainAgain h.plainFirst (fun hpromising => ?_)
        (h.spent hs htops hexhaustive hv hw) hexhaustive hv hwe hw
      rw [h.bestValue] at hpromising
      exact htops.mayImprove hs.absoluteGap hpromising
    · rw [state_absorb]
      exact hbest
    · rw [state_absorb]
      exact himprovements
    · rw [pending_absorb, pending_absorb]
      rcases hchildren with hnone | hsame
      · exact ⟨v.outcome.children, by rw [hnone, List.nil_append]⟩
      · exact ⟨[], by rw [hsame, List.nil_append]⟩
  | cons first' others =>
    rw [List.cons_append, List.cons.injEq] at hsplit
    obtain ⟨rfl, hrest⟩ := hsplit
    refine ⟨again, ⟨h.plainFirst.of_visit hpending hv, h.plainAgain, h.complete,
      h.noLonger.of_visit h.plainFirst hexhaustive hv, h.best, h.improvements,
      v.outcome.children ++ others, ?_⟩, rfl⟩
    rw [pending_absorb, hrest, List.append_assoc]

omit [Lawful α] in
/-- The run from the point of the final incumbent starts as a repetition. -/
theorem of_start (hdedup : search.settings.dedup = false) {warmStart : Option (Array α)}
    (hfirst : search.start warmStart = .ok first)
    (hagain : search.start (some final.point) = .ok again)
    (hboard : again.state.board = ((State.initial search).board.offer final.point
      (search.problem.objective final.point)).2)
    (hvalid : Scalar.isNaN final.objective = false)
    (hobjective : final.objective = search.problem.objective final.point) :
    Repeats search final first again := by
  obtain ⟨hpending, hopens, -⟩ := Search.start_eq_ok hfirst
  obtain ⟨hpending', hopens', hcomplete, -, -, hcalls⟩ := Search.start_eq_ok hagain
  have hoffer : ((State.initial search).board.offer final.point
      (search.problem.objective final.point)).1 = true := by
    rw [Scoreboard.offer_fst_iff, ← hobjective]
    exact ⟨hvalid, rfl⟩
  refine ⟨plain_start hdedup hfirst, plain_start hdedup hagain, hcomplete, ⟨?_, ?_, ?_⟩, ?_, ?_,
    [], ?_⟩
  · show ((callsOf again.journal).map Call.node).Sublist _
    rw [hcalls]
    exact List.nil_sublist _
  · rw [hboard, Scoreboard.solved_offer]
    exact Nat.zero_le _
  · rw [hopens.budget, hopens'.budget]
  · rw [hboard, Scoreboard.best_offer, hoffer, ← hobjective]
    rfl
  · rw [hboard, Scoreboard.improvements_offer, hoffer]
    rfl
  · rw [hpending, hpending']
    rfl

/-- If the first run comes to its end and leaves nothing out, the new one comes to an end too. -/
theorem run_ok (hs : search.Repeatable R) {clock : Nat → Nat} {s : Run α}
    (h : Repeats search final first again) (hrun : run search clock first = .ok s)
    (hcomplete : s.complete = true) (hfinal : s.state.board.best = some final)
    (clock' : Nat → Nat) :
    ∃ t, run search clock' again = .ok t ∧ Repeats search final s t := by
  refine exists_run_of_simulation (fun h hpending hv hexhaustive hrest => ?_) (fun h hdone => ?_) h
    hrun hcomplete
  · have hadvances := advances_of_visit hpending hv
    have hreaches := (reaches_of_run hrest).1
    have htops := tops_of_reaches hs.heeds h.plainFirst.coherent (hreaches.head hadvances) hfinal
    have hafter :=
      tops_of_reaches hs.heeds (h.plainFirst.coherent.of_advances hadvances) hreaches hfinal
    rw [state_absorb] at hafter
    exact h.exists_of_visit hs htops hpending hexhaustive hv hafter clock'
  · obtain ⟨skipped, hpending⟩ := h.pending
    rw [hdone] at hpending
    exact (List.append_eq_nil_iff.mp hpending.symm).2

end Repeats

end Run

/-! ## Restarting -/

/-- A search that went through its tree and found a point finds it again when it is started from the
point: it makes some of the same calls, in the same order, and no other point takes the place of the
first one. This holds for every gap. -/
theorem restart_confirms {search : Search α} {R : Node α → Answer α}
    (hR : search.relaxation.Heeds search.problem R) (hdedup : search.settings.dedup = false)
    (htime : search.settings.timeLimit = none) {warmStart : Option (Array α)}
    {clock : Nat → Nat} {first : Report α} (hfirst : search.solve warmStart clock = .ok first)
    (hstatus : first.solution.status = .optimal)
    (haccepts : search.acceptsStart first.solution.point = .ok true) (clock' : Nat → Nat) :
    ∃ again, search.solve (some first.solution.point) clock' = .ok again ∧
      again.solution.status = .optimal ∧ again.solution.point = first.solution.point ∧
      again.solution.objective = first.solution.objective ∧ again.solution.improvements = 1 ∧
      again.solution.solved ≤ first.solution.solved ∧
      ((callsOf again.journal).map Call.node).Sublist ((callsOf first.journal).map Call.node) := by
  obtain ⟨hcheck, r, s, hr, hrun, rfl⟩ := Search.solve_eq_ok hfirst
  obtain ⟨-, habsolute, -, -, hlog⟩ := Settings.check_eq_ok_iff.mp hcheck
  obtain ⟨hcomplete, final, hfinal⟩ := Run.status_finish_eq_optimal_iff.mp hstatus
  obtain ⟨hpoint, hvalue⟩ := Run.solution_finish (clock s.visits) hfinal
  rw [hpoint] at haccepts
  have hs : search.Repeatable R := ⟨hR, habsolute, htime, hlog, Search.known_of_accepts haccepts⟩
  obtain ⟨r', hr', hboard⟩ := Search.start_of_accepts haccepts
  obtain ⟨hvalid, hobjective⟩ :=
    (Run.invariant_of_reaches (P := Run.Coherent search) (fun hstep hr => hr.of_advances hstep)
      (reaches_of_run hrun).1 (Run.coherent_start hr)).best final hfinal
  obtain ⟨t, ht, h⟩ := (Run.Repeats.of_start hdedup hr hr' hboard hvalid hobjective).run_ok hs hrun
    hcomplete hfinal clock'
  refine ⟨t.finish (clock' t.visits), ?_, ?_, ?_, ?_, h.improvements, h.noLonger.solved, ?_⟩
  · rw [hpoint]
    exact Search.solve_of_run hcheck hr' ht
  · exact Run.status_finish_eq_optimal_iff.mpr ⟨h.complete, final, h.best⟩
  · rw [hpoint]
    exact (Run.solution_finish (clock' t.visits) h.best).1
  · rw [hvalue]
    exact (Run.solution_finish (clock' t.visits) h.best).2
  · rw [Run.callsOf_finish, Run.callsOf_finish]
    exact h.noLonger.asked

/-- The parabola with the standard gaps: the search calls three times and finds the point one; from
there it calls twice, because nothing above two beats the point. -/
theorem restart_confirms_parabola : ∃ first again,
    let search := { Parabola.search (.heeding Parabola.problem Parabola.answers) with
      settings := .standard }
    search.solve none (fun _ => 0) = .ok first ∧ first.solution.status = .optimal ∧
      first.solution.point = #[1.0] ∧ first.solution.solved = 3 ∧
      search.solve (some #[1.0]) (fun _ => 0) = .ok again ∧ again.solution.status = .optimal ∧
      again.solution.point = #[1.0] ∧ again.solution.improvements = 1 := by
  let search := { Parabola.search (.heeding Parabola.problem Parabola.answers) with
    settings := .standard }
  have hrun : (search.solve none (fun _ => 0)).toOption.map (fun report =>
      (report.solution.status, report.solution.point, report.solution.solved)) =
      some (.optimal, #[1.0], 3) := by decide +kernel
  obtain ⟨first, hfirst, hfound⟩ := exists_of_toOption_map hrun
  simp only [Prod.mk.injEq] at hfound
  obtain ⟨hstatus, hpoint, hsolved⟩ := hfound
  obtain ⟨again, hagain, hstatus', hpoint', -, himprovements, -⟩ :=
    restart_confirms (Relaxation.heeds_heeding Parabola.problem Parabola.answers) rfl rfl hfirst hstatus
      (by rw [hpoint]; decide +kernel) (fun _ => 0)
  rw [hpoint] at hagain hpoint'
  exact ⟨first, again, hfirst, hstatus, hpoint, hsolved, hagain, hstatus', hpoint', himprovements⟩

end BranchBound
