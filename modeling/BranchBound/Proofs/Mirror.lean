import BranchBound.Proofs.Simulation
import BranchBound.Proofs.Symmetric

/-!
# Mirrored searches

Minimising an objective and maximising its opposite are one search seen from two sides. Wherever the
search looks at an objective value it also looks at the sense: for the promise of the root, the gap,
the threshold, the cutoff and the incumbent. All of these are mirrored if the objective is
(`Criteria.mayImprove_mirror`, `Scoreboard.Mirrors.offer`), and everything else that is read does not
depend on the objective.

So a mirrored search visits the same boxes in the same order (`exists_mirrored_visit`), asks the
relaxation the same with mirrored cutoffs, and reports the same with the opposite objective value
(`Search.Mirrors.solve`).
-/

namespace BranchBound

open Scalar

/-- The sense under which the opposite values are good. -/
def Sense.opposite : Sense → Sense
  | .minimise => .maximise
  | .maximise => .minimise

variable {α : Type}

namespace Criteria

variable (c : Criteria α)

/-- The criteria for the opposite sense. -/
def mirror : Criteria α := { c with sense := c.sense.opposite }

theorem integrality_mirror : c.mirror.integrality = c.integrality := rfl

variable [Scalar α]

theorem firstFractional?_mirror (x : Array α) (vars : List (Nat × Nat)) :
    c.mirror.firstFractional? x vars = c.firstFractional? x vars := by
  induction vars with
  | nil => rfl
  | cons vp rest ih => simp only [firstFractional?, ih, integrality_mirror]

theorem allWhole_mirror (x : Array α) (vars : List Nat) :
    c.mirror.allWhole x vars = c.allWhole x vars := by
  induction vars with
  | nil => rfl
  | cons var rest ih => simp only [allWhole, ih, integrality_mirror]

end Criteria

variable [Scalar α] [Symmetric α]

/-! ## What is mirrored -/

/-- Nodes of one box that promise opposite values. -/
structure Node.Mirrors (node node' : Node α) : Prop where
  vars : node'.vars = node.vars
  cuts : node'.cuts = node.cuts
  depth : node'.depth = node.depth
  estimate : Mirrored node.estimate node'.estimate

/-- Cutoffs at opposite values, for opposite senses. -/
inductive Cutoff.Mirrors : Cutoff α → Cutoff α → Prop
  | upper {v w : α} (h : Mirrored v w) : Mirrors (.upper v) (.lower w)
  | lower {v w : α} (h : Mirrored v w) : Mirrors (.lower v) (.upper w)

/-- Answers with one point and opposite values. -/
structure Answer.Mirrors (answer answer' : Answer α) : Prop where
  verdict : answer'.verdict = answer.verdict
  point : answer'.point = answer.point
  objective : Mirrored answer.objective answer'.objective

/-- Calls for one box, within mirrored cutoffs and with mirrored answers. -/
structure Call.Mirrors (call call' : Call α) : Prop where
  node : call.node.Mirrors call'.node
  cutoff : Option.Rel Cutoff.Mirrors call.cutoff call'.cutoff
  answer : call.answer.Mirrors call'.answer

/-- Incumbents at one point with opposite values. -/
structure Incumbent.Mirrors (best best' : Incumbent α) : Prop where
  point : best'.point = best.point
  objective : Mirrored best.objective best'.objective

/-- Scoreboards that count the same, of mirrored incumbents. -/
structure Scoreboard.Mirrors (board board' : Scoreboard α) : Prop where
  sense : board'.sense = board.sense.opposite
  best : Option.Rel Incumbent.Mirrors board.best board'.best
  offers : board'.offers = board.offers
  improvements : board'.improvements = board.improvements
  solved : board'.solved = board.solved

structure State.Mirrors (σ τ : State α) : Prop where
  board : σ.board.Mirrors τ.board
  budget : τ.budget = σ.budget
  visited : τ.visited = σ.visited

/-- Visits that leave mirrored nodes and states behind, and made mirrored calls. -/
structure Visit.Mirrors (v w : Visit α) : Prop where
  state : v.state.Mirrors w.state
  children : List.Forall₂ Node.Mirrors v.outcome.children w.outcome.children
  isExhaustive : w.outcome.isExhaustive = v.outcome.isExhaustive
  calls : List.Forall₂ Call.Mirrors (v.events.filterMap Event.call?)
    (w.events.filterMap Event.call?)

/-- Runs that have mirrored nodes to visit, and made mirrored calls. -/
structure Run.Mirrors (r s : Run α) : Prop where
  pending : List.Forall₂ Node.Mirrors r.pending s.pending
  state : r.state.Mirrors s.state
  complete : s.complete = r.complete
  visits : s.visits = r.visits
  calls : List.Forall₂ Call.Mirrors (callsOf r.journal) (callsOf s.journal)

/-- Reports of the same search with opposite objective values: the relaxation was called for the
same boxes in the same order, within mirrored cutoffs, and status, point and counters are equal. -/
structure Report.Mirrors (report report' : Report α) : Prop where
  calls : List.Forall₂ Call.Mirrors (callsOf report.journal) (callsOf report'.journal)
  status : report'.solution.status = report.solution.status
  point : report'.solution.point = report.solution.point
  solved : report'.solution.solved = report.solution.solved
  offers : report'.solution.offers = report.solution.offers
  improvements : report'.solution.improvements = report.solution.improvements
  iterations : report'.solution.iterations = report.solution.iterations
  objective : Mirrored report.solution.objective report'.solution.objective

/-- Searches with opposite senses and objectives, whose relaxations give mirrored answers. -/
structure Search.Mirrors (search search' : Search α) : Prop where
  sense : search'.problem.sense = search.problem.sense.opposite
  integers : search'.problem.integers = search.problem.integers
  size : search'.problem.size = search.problem.size
  accepts : search'.problem.accepts = search.problem.accepts
  objective : ∀ x, Mirrored (search.problem.objective x) (search'.problem.objective x)
  settings : search'.settings = search.settings
  answers : ∀ {call : Nat} {node node' : Node α} {cutoff cutoff' : Option (Cutoff α)}
    {answer : Answer α}, node.Mirrors node' → Option.Rel Cutoff.Mirrors cutoff cutoff' →
    search.relaxation call node cutoff = .ok answer →
    ∃ answer', search'.relaxation call node' cutoff' = .ok answer' ∧ answer.Mirrors answer'

variable {a a' b b' : α}

/-! ## Senses -/

namespace Sense

variable (sense : Sense)

theorem better_opposite (ha : Mirrored a a') (hb : Mirrored b b') :
    sense.opposite.better a' b' = sense.better a b := by
  cases sense with
  | minimise => exact decide_eq_decide.mpr (hb.lt_iff ha)
  | maximise => exact decide_eq_decide.mpr (ha.lt_iff hb)

theorem mirrored_best : Mirrored (sense.best : α) sense.opposite.best := by
  cases sense with
  | minimise => exact (mirrored_neg _).symm
  | maximise => exact mirrored_neg _

end Sense

theorem Cutoff.Mirrors.excludes {cutoff cutoff' : Cutoff α} (h : cutoff.Mirrors cutoff')
    (ha : Mirrored a a') : cutoff'.excludes a' = cutoff.excludes a := by
  cases h with
  | upper h => exact decide_eq_decide.mpr (ha.lt_iff h)
  | lower h => exact decide_eq_decide.mpr (h.lt_iff ha)

theorem Cutoff.any_excludes_mirror {cutoff cutoff' : Option (Cutoff α)}
    (h : Option.Rel Cutoff.Mirrors cutoff cutoff') (ha : Mirrored a a') :
    cutoff'.any (·.excludes a') = cutoff.any (·.excludes a) := by
  cases h with
  | none => rfl
  | some h => exact h.excludes ha

theorem Answer.mirrors_infeasible : (Answer.infeasible : Answer α).Mirrors .infeasible :=
  ⟨rfl, rfl, mirrored_nan⟩

theorem Answer.mirrors_failed : (Answer.failed : Answer α).Mirrors .failed :=
  ⟨rfl, rfl, mirrored_nan⟩

/-! ## Criteria -/

namespace Criteria

variable (c : Criteria α)

theorem value_gap_mirror (h : Mirrored a a') :
    Lawful.value (c.mirror.gap a') = Lawful.value (c.gap a) :=
  value_maxNum_congr (h.mul_right c.relativeGap).value_abs_eq rfl

theorem mirrored_threshold (h : Mirrored a a') :
    Mirrored (c.threshold a) (c.mirror.threshold a') := by
  have hgap := c.value_gap_mirror h
  obtain ⟨sense, relativeGap, absoluteGap, integrality⟩ := c
  cases sense with
  | minimise => exact h.sub_add hgap.symm
  | maximise => exact (h.symm.sub_add hgap).symm

/-- What may improve on an incumbent may do so in the mirror. -/
theorem mayImprove_mirror (ha : Mirrored a a') {best best' : Option α}
    (h : Option.Rel Mirrored best best') :
    c.mirror.mayImprove a' best' = c.mayImprove a best := by
  cases h with
  | none => rfl
  | some h =>
    have hthreshold := c.mirrored_threshold h
    obtain ⟨sense, relativeGap, absoluteGap, integrality⟩ := c
    cases sense with
    | minimise => exact congrArg Bool.not (decide_eq_decide.mpr (ha.le_iff hthreshold))
    | maximise => exact congrArg Bool.not (decide_eq_decide.mpr (hthreshold.le_iff ha))

theorem cutoff_mirror {best best' : Option α} (h : Option.Rel Mirrored best best') :
    Option.Rel Cutoff.Mirrors (c.cutoff? best) (c.mirror.cutoff? best') := by
  cases h with
  | none => exact .none
  | some h =>
    have hthreshold := c.mirrored_threshold h
    obtain ⟨sense, relativeGap, absoluteGap, integrality⟩ := c
    cases sense with
    | minimise => exact .some (.upper hthreshold)
    | maximise => exact .some (.lower hthreshold)

end Criteria

/-! ## Nodes -/

namespace Node.Mirrors

variable {node node' kid : Node α}

theorem child (h : node.Mirrors node') (ha : Mirrored a a') {position : Nat} {f : Cut → Cut}
    (hkid : node.child position f a = .ok kid) :
    ∃ kid', node'.child position f a' = .ok kid' ∧ kid.Mirrors kid' := by
  obtain ⟨c, hc, rfl⟩ := child_eq_ok_iff.mp hkid
  refine ⟨_, child_eq_ok_iff.mpr ⟨c, by rw [h.cuts]; exact hc, rfl⟩, h.vars, ?_, ?_, ha⟩
  · exact congrArg (·.setIfInBounds position (f c)) h.cuts
  · exact congrArg (· + 1) h.depth

/-- The children of mirrored nodes are mirrored, and come in the same order. -/
theorem split (h : node.Mirrors node') (ha : Mirrored a a') {branching : Branching α} {s : Split α}
    (hs : node.split branching a = .ok s) : ∃ s', node'.split branching a' = .ok s' ∧
      s.continued.Mirrors s'.continued ∧ s.forked.Mirrors s'.forked := by
  obtain ⟨below, hbelow, hs⟩ := bind_eq_ok.mp hs
  obtain ⟨above, habove, hs⟩ := bind_eq_ok.mp hs
  obtain ⟨below', hbelow', hb⟩ := h.child ha hbelow
  obtain ⟨above', habove', ha⟩ := h.child ha habove
  split at hs
  · rename_i hnear
    rw [← Except.ok.inj hs]
    exact ⟨_, bind_eq_ok.mpr ⟨_, hbelow', bind_eq_ok.mpr ⟨_, habove', if_pos hnear⟩⟩, ha, hb⟩
  · rename_i hnear
    rw [← Except.ok.inj hs]
    exact ⟨_, bind_eq_ok.mpr ⟨_, hbelow', bind_eq_ok.mpr ⟨_, habove', if_neg hnear⟩⟩, hb, ha⟩

theorem branching? (h : node.Mirrors node') (c : Criteria α) (x : Array α) :
    c.mirror.branching? x node' = c.branching? x node := by
  unfold Criteria.branching?
  rw [c.firstFractional?_mirror, h.vars]

theorem mark (h : node.Mirrors node') (visited : Visited) :
    visited.mark node' = visited.mark node := by
  unfold Visited.mark
  rw [h.cuts]

end Node.Mirrors

/-! ## The scoreboard -/

namespace Scoreboard.Mirrors

variable {board board' : Scoreboard α}

theorem bestValue (h : board.Mirrors board') :
    Option.Rel Mirrored board.bestValue board'.bestValue := by
  unfold Scoreboard.bestValue
  have hbest := h.best
  generalize board.best = best, board'.best = best' at hbest ⊢
  cases hbest with
  | none => exact .none
  | some hbest => exact .some hbest.objective

theorem improves (h : board.Mirrors board') (ha : Mirrored a a') :
    board'.improves a' = board.improves a := by
  unfold Scoreboard.improves
  have hbest := h.bestValue
  generalize board.bestValue = best, board'.bestValue = best' at hbest ⊢
  cases hbest with
  | none => rfl
  | some hbest =>
    dsimp only
    rw [h.sense, Sense.better_opposite _ ha hbest]

theorem countSolved (h : board.Mirrors board') : board.countSolved.Mirrors board'.countSolved :=
  ⟨h.sense, h.best, h.offers, h.improvements, congrArg (· + 1) h.solved⟩

/-- An offer replaces the incumbent if it does so in the mirror. -/
theorem offer_fst (h : board.Mirrors board') (ha : Mirrored a a') (x : Array α) :
    (board'.offer x a').1 = (board.offer x a).1 := by
  rw [Bool.eq_iff_iff, offer_fst_iff, offer_fst_iff, ha.isNaN_eq, h.improves ha]

theorem offer (h : board.Mirrors board') (ha : Mirrored a a') (x : Array α) :
    (board.offer x a).2.Mirrors (board'.offer x a').2 := by
  refine ⟨?_, ?_, ?_, ?_, ?_⟩
  · rw [sense_offer, sense_offer, h.sense]
  · rw [best_offer, best_offer, h.offer_fst ha]
    split
    · exact .some ⟨rfl, ha⟩
    · exact h.best
  · rw [offers_offer, offers_offer, h.offers]
  · rw [improvements_offer, improvements_offer, h.offer_fst ha, h.improvements]
  · rw [solved_offer, solved_offer, h.solved]

end Scoreboard.Mirrors

/-! ## States on the way -/

namespace State.Mirrors

variable {σ τ : State α} {node node' : Node α}

theorem marked (h : σ.Mirrors τ) (hnode : node.Mirrors node') :
    (σ.marked node).Mirrors (τ.marked node') where
  board := h.board
  budget := h.budget
  visited := by
    show (τ.visited.mark node').2 = (σ.visited.mark node).2
    rw [h.visited, hnode.mark]

theorem asked (h : σ.Mirrors τ) (hnode : node.Mirrors node') :
    (σ.asked node).Mirrors (τ.asked node') :=
  ⟨h.board.countSolved, h.budget, (h.marked hnode).visited⟩

theorem counted (h : σ.Mirrors τ) (hnode : node.Mirrors node') :
    (σ.counted node).Mirrors (τ.counted node') :=
  ⟨h.board.countSolved, congrArg Budget.spend h.budget, (h.marked hnode).visited⟩

theorem offered (h : σ.Mirrors τ) (hnode : node.Mirrors node') (x : Array α)
    (ha : Mirrored a a') : (σ.offered node x a).Mirrors (τ.offered node' x a') :=
  ⟨h.board.countSolved.offer ha x, (h.counted hnode).budget, (h.marked hnode).visited⟩

end State.Mirrors

/-! ## Visits -/

section

variable {search search' : Search α} {elapsed elapsed' : Nat} {σ τ : State α}
  {node node' : Node α}

namespace Search.Mirrors

theorem criteria (h : search.Mirrors search') : search'.criteria = search.criteria.mirror := by
  unfold Search.criteria Criteria.ofSettings Criteria.mirror
  rw [h.sense, h.settings]

theorem mayImprove (h : search.Mirrors search') (ha : Mirrored a a') (hstate : σ.Mirrors τ) :
    search'.criteria.mayImprove a' τ.board.bestValue =
      search.criteria.mayImprove a σ.board.bestValue := by
  rw [h.criteria, Criteria.mayImprove_mirror _ ha hstate.board.bestValue]

theorem cutoff (h : search.Mirrors search') (hstate : σ.Mirrors τ) : Option.Rel Cutoff.Mirrors
    (search.criteria.cutoff? σ.board.bestValue) (search'.criteria.cutoff? τ.board.bestValue) := by
  rw [h.criteria]
  exact Criteria.cutoff_mirror _ hstate.board.bestValue

variable {answer answer' : Answer α}

theorem usable (h : search.Mirrors search') (hanswer : answer.Mirrors answer') :
    Visit.isUsable search' answer'.point = Visit.isUsable search answer.point := by
  unfold Visit.isUsable
  rw [h.size, h.accepts, h.settings, hanswer.point]

theorem value (h : search.Mirrors search') (hanswer : answer.Mirrors answer') :
    Mirrored (search.problem.objective answer.point) (search'.problem.objective answer'.point) := by
  rw [hanswer.point]
  exact h.objective answer.point

/-- The point of a mirrored answer is branched on at the same place. -/
theorem branching? (h : search.Mirrors search') (hnode : node.Mirrors node')
    (hanswer : answer.Mirrors answer') : search'.criteria.branching? answer'.point node' =
      search.criteria.branching? answer.point node := by
  rw [h.criteria, hanswer.point, hnode.branching?]

end Search.Mirrors

variable (h : search.Mirrors search') (hlog : search.settings.logFrequency ≠ 0)
  (hstate : σ.Mirrors τ) (hnode : node.Mirrors node')
  (hnow : σ.budget.allows elapsed = σ.budget.allows elapsed')

include h hlog hstate hnode hnow

theorem Visit.Asks.mirror {answer : Answer α} {events : List (Event α)}
    (asks : Visit.Asks search elapsed σ node answer events) : ∃ answer' events',
    Visit.Asks search' elapsed' τ node' answer' events' ∧ answer.Mirrors answer' := by
  obtain ⟨answer', hanswer', hmirrors⟩ := h.answers hnode (h.cutoff hstate) asks.answered
  rw [← h.settings] at hlog
  obtain ⟨report, hreport⟩ := progress_ok hlog elapsed' (τ.asked node')
  refine ⟨answer', _, ⟨?_, ?_, ?_, ?_, report, hreport, rfl⟩, hmirrors⟩
  · rw [hstate.budget, ← hnow]
    exact asks.allowed
  · rw [hstate.visited, hnode.mark]
    exact asks.isNew
  · rw [h.mayImprove hnode.estimate hstate]
    exact asks.promising
  · rw [hstate.board.solved]
    exact hanswer'

theorem Visit.Takes.mirror {answer : Answer α} {events : List (Event α)}
    (takes : Visit.Takes search elapsed σ node answer events) : ∃ answer' events',
    Visit.Takes search' elapsed' τ node' answer' events' ∧ answer.Mirrors answer' := by
  obtain ⟨answer', events', asks, hanswer⟩ := takes.toAsks.mirror h hlog hstate hnode hnow
  refine ⟨answer', events', ⟨asks, ?_, ?_, ?_⟩, hanswer⟩
  · rw [hanswer.verdict]
    exact takes.feasible
  · rw [hstate.budget]
    exact takes.affordable
  · rw [h.usable hanswer]
    exact takes.usable

omit hlog in
/-- Of mirrored states the relaxation is asked the same, within mirrored cutoffs. -/
theorem calls_of_mirrors {v w : Visit α} (hv : visit search elapsed σ node = .ok v)
    (hw : visit search' elapsed' τ node' = .ok w) :
    List.Forall₂ Call.Mirrors (v.events.filterMap Event.call?)
      (w.events.filterMap Event.call?) := by
  have hcalls := calls_of_visit hv
  have hcalls' := calls_of_visit hw
  have hasks : τ.asks search' elapsed' node' = σ.asks search elapsed node := by
    unfold State.asks
    rw [h.mayImprove hnode.estimate hstate, hstate.budget, ← hnow, hstate.visited, hnode.mark]
  rw [hasks] at hcalls'
  split at hcalls
  · rename_i hσ
    rw [if_pos hσ] at hcalls'
    obtain ⟨⟨answer, hanswer, hevents⟩, -⟩ := hcalls
    obtain ⟨⟨answer', hanswer', hevents'⟩, -⟩ := hcalls'
    obtain ⟨_, hmirrored, hmirrors⟩ := h.answers hnode (h.cutoff hstate) hanswer
    rw [hstate.board.solved, hmirrored] at hanswer'
    obtain rfl := Except.ok.inj hanswer'
    rw [hevents, hevents']
    exact .cons ⟨hnode, h.cutoff hstate, hmirrors⟩ .nil
  · rename_i hσ
    rw [if_neg hσ] at hcalls'
    rw [hcalls.1, hcalls'.1]
    exact .nil

/-- A visit has a mirrored one in the mirrored search. -/
theorem exists_mirrored_visit {v : Visit α} (hv : visit search elapsed σ node = .ok v) :
    ∃ w, visit search' elapsed' τ node' = .ok w ∧ v.Mirrors w := by
  -- calls apart, a visit and its counterpart are seen to be mirrored from the courses they take
  suffices hcourse : ∃ w, Visit.Course search' elapsed' τ node' w ∧ v.state.Mirrors w.state ∧
      List.Forall₂ Node.Mirrors v.outcome.children w.outcome.children ∧
      w.outcome.isExhaustive = v.outcome.isExhaustive by
    obtain ⟨w, hw, hstate', hchildren, hexhaustive⟩ := hcourse
    have hw := Visit.visit_eq_ok_iff.mpr hw
    exact ⟨w, hw, hstate', hchildren, hexhaustive, calls_of_mirrors h hstate hnode hnow hv hw⟩
  have hallows : τ.budget.allows elapsed' = σ.budget.allows elapsed := by
    rw [hstate.budget, ← hnow]
  have hmark : (τ.visited.mark node').1 = (σ.visited.mark node).1 := by
    rw [hstate.visited, hnode.mark]
  have hspend : τ.budget.spend.isExhausted = σ.budget.spend.isExhausted := by
    rw [hstate.budget]
  cases Visit.course_of_visit hv with
  | outOfBudget hnot => exact ⟨_, .outOfBudget (hallows.trans hnot), hstate, .nil, rfl⟩
  | seenBefore allowed hseen =>
    exact ⟨_, .seenBefore (hallows.trans allowed) (hmark.trans hseen), hstate.marked hnode, .nil,
      rfl⟩
  | unpromising allowed isNew hnot =>
    exact ⟨_, .unpromising (hallows.trans allowed) (hmark.trans isNew)
      ((h.mayImprove hnode.estimate hstate).trans hnot), hstate.marked hnode, .nil, rfl⟩
  | noPoint asks hnone =>
    obtain ⟨answer', events', asks', hanswer⟩ := asks.mirror h hlog hstate hnode hnow
    exact ⟨_, .noPoint asks' (hanswer.verdict ▸ hnone), hstate.asked hnode, .nil, rfl⟩
  | overCeiling asks feasible hover =>
    obtain ⟨answer', events', asks', hanswer⟩ := asks.mirror h hlog hstate hnode hnow
    exact ⟨_, .overCeiling asks' (hanswer.verdict ▸ feasible) (hspend.trans hover),
      hstate.counted hnode, .nil, rfl⟩
  | unusable asks feasible affordable hnot =>
    obtain ⟨answer', events', asks', hanswer⟩ := asks.mirror h hlog hstate hnode hnow
    exact ⟨_, .unusable asks' (hanswer.verdict ▸ feasible) (hspend.trans affordable)
      ((h.usable hanswer).trans hnot), hstate.counted hnode, .nil, rfl⟩
  | whole takes hnone =>
    obtain ⟨answer', events', takes', hanswer⟩ := takes.mirror h hlog hstate hnode hnow
    refine ⟨_, .whole takes' ((h.branching? hnode hanswer).trans hnone), ?_, .nil, rfl⟩
    have hoffered := hstate.offered hnode answer'.point (h.value hanswer)
    rw [hanswer.point] at hoffered ⊢
    exact hoffered
  | dominated takes hbranching hnot =>
    obtain ⟨answer', events', takes', hanswer⟩ := takes.mirror h hlog hstate hnode hnow
    exact ⟨_, .dominated takes' ((h.branching? hnode hanswer).trans hbranching)
      ((h.mayImprove (h.value hanswer) hstate).trans hnot), hstate.counted hnode, .nil, rfl⟩
  | split takes hbranching improves hsplit =>
    obtain ⟨answer', events', takes', hanswer⟩ := takes.mirror h hlog hstate hnode hnow
    obtain ⟨s', hsplit', hcontinued, hforked⟩ := hnode.split (h.value hanswer) hsplit
    exact ⟨_, .split takes' ((h.branching? hnode hanswer).trans hbranching)
      ((h.mayImprove (h.value hanswer) hstate).trans improves) hsplit', hstate.counted hnode,
      .cons hcontinued (.cons hforked .nil), rfl⟩

end

/-! ## Runs -/

namespace Run.Mirrors

variable {search search' : Search α} {r s : Run α} {rest rest' : List (Node α)} {v w : Visit α}

theorem absorb (h : r.Mirrors s) (hrest : List.Forall₂ Node.Mirrors rest rest')
    (hv : v.Mirrors w) : (r.absorb rest v).Mirrors (s.absorb rest' w) where
  pending := by
    rw [pending_absorb, pending_absorb]
    exact List.rel_append hv.children hrest
  state := by
    rw [state_absorb, state_absorb]
    exact hv.state
  complete := by rw [complete_absorb, complete_absorb, h.complete, hv.isExhaustive]
  visits := by rw [visits_absorb, visits_absorb, h.visits]
  calls := by
    rw [journal_absorb, journal_absorb, callsOf_append, callsOf_append]
    exact List.rel_append h.calls hv.calls

/-- A mirrored run comes to its end with the run. -/
theorem run (h : search.Mirrors search') (hlog : search.settings.logFrequency ≠ 0)
    {clock clock' : Nat → Nat} (htime : search.settings.timeLimit = none ∨ clock = clock')
    (hr : r.Mirrors s) (hlimited : r.state.budget.Limited search.settings) {t : Run α}
    (hrun : BranchBound.run search clock r = .ok t) :
    ∃ t', BranchBound.run search' clock' s = .ok t' ∧ t.Mirrors t' := by
  refine (exists_run_of_visits
    (P := fun r s => r.Mirrors s ∧ r.state.budget.Limited search.settings)
    (fun {r s _ _ _} hP hpending hv _ => ?_) (fun hP hdone => ?_) ⟨hr, hlimited⟩ hrun).imp
    fun _ ht => ⟨ht.1, ht.2.1⟩
  · obtain ⟨hr, hlimited⟩ := hP
    have hnodes := hr.pending
    rw [hpending] at hnodes
    obtain ⟨node', rest', hnode, hrest, hpending'⟩ := List.forall₂_cons_left_iff.mp hnodes
    have hnow : r.state.budget.allows (clock r.visits) =
        r.state.budget.allows (clock' s.visits) := by
      rw [hr.visits]
      rcases htime with hnone | rfl
      · exact Bool.eq_iff_iff.mpr ⟨hlimited.allows hlimited le_rfl (Or.inl hnone),
          hlimited.allows hlimited le_rfl (Or.inl hnone)⟩
      · rfl
    obtain ⟨w, hw, hmirrors⟩ := exists_mirrored_visit h hlog hr.state hnode hnow hv
    refine ⟨_, ⟨hr.absorb hrest hmirrors, ?_⟩, run_of_visit hpending' hw⟩
    rw [state_absorb]
    exact limited_of_visit hv hlimited
  · have hnil := hP.1.pending
    rw [hdone] at hnil
    exact List.forall₂_nil_left_iff.mp hnil

theorem finish (h : r.Mirrors s) (elapsed elapsed' : Nat) :
    (r.finish elapsed).Mirrors (s.finish elapsed') := by
  have hbest := h.state.board.best
  have hfound : s.state.board.best.isSome = r.state.board.best.isSome ∧
      (s.state.board.best.map Incumbent.point).getD #[] =
        (r.state.board.best.map Incumbent.point).getD #[] ∧
      Mirrored (r.state.board.bestValue.getD nan) (s.state.board.bestValue.getD nan) := by
    unfold Scoreboard.bestValue
    generalize r.state.board.best = best, s.state.board.best = best' at hbest ⊢
    cases hbest with
    | none => exact ⟨rfl, rfl, mirrored_nan⟩
    | some hbest => exact ⟨rfl, hbest.point, hbest.objective⟩
  refine ⟨?_, ?_, hfound.2.1, h.state.board.solved, h.state.board.offers,
    h.state.board.improvements, congrArg Budget.iterations h.state.budget, hfound.2.2⟩
  · rw [calls_finish, calls_finish]
    exact h.calls
  · rw [status_finish, status_finish, hfound.1, h.complete]

end Run.Mirrors

/-! ## Searches -/

namespace Search.Mirrors

variable {search search' : Search α} {warmStart : Option (Array α)}

theorem acceptsStart (h : search.Mirrors search') (x : Array α) :
    search'.acceptsStart x = search.acceptsStart x := by
  unfold Search.acceptsStart
  rw [h.size, h.accepts, h.integers, h.criteria, Criteria.allWhole_mirror]

theorem initial (h : search.Mirrors search') :
    (State.initial search).Mirrors (State.initial search') := by
  unfold State.initial
  rw [h.sense, h.settings]
  exact ⟨⟨rfl, .none, rfl, rfl, rfl⟩, rfl, rfl⟩

theorem root (h : search.Mirrors search') : search.root.Mirrors search'.root := by
  unfold Search.root
  rw [h.sense, h.integers]
  exact ⟨rfl, rfl, rfl, Sense.mirrored_best _⟩

/-- Mirrored searches take up a warm start alike. -/
theorem start (h : search.Mirrors search') {r : Run α} (hr : search.start warmStart = .ok r) :
    ∃ s, search'.start warmStart = .ok s ∧ r.Mirrors s := by
  obtain ⟨σ, events, hseeds, rfl⟩ := start_eq_ok_iff.mp hr
  cases hseeds with
  | cold =>
    exact ⟨_, start_eq_ok_iff.mpr ⟨_, _, .cold, rfl⟩, .cons h.root .nil, h.initial, rfl, rfl, .nil⟩
  | ignored haccepts =>
    exact ⟨_, start_eq_ok_iff.mpr ⟨_, _, .ignored ((h.acceptsStart _).trans haccepts), rfl⟩,
      .cons h.root .nil, h.initial, rfl, rfl, .nil⟩
  | accepted haccepts =>
    exact ⟨_, start_eq_ok_iff.mpr ⟨_, _, .accepted ((h.acceptsStart _).trans haccepts), rfl⟩,
      .cons h.root .nil, ⟨h.initial.board.offer (h.objective _) _, h.initial.budget,
        h.initial.visited⟩, rfl, rfl, .nil⟩

/-- A search that gives a report has a mirrored one in the mirror. -/
theorem solve (h : search.Mirrors search') {clock clock' : Nat → Nat}
    (htime : search.settings.timeLimit = none ∨ clock = clock') {report : Report α}
    (hreport : search.solve warmStart clock = .ok report) :
    ∃ report', search'.solve warmStart clock' = .ok report' ∧ report.Mirrors report' := by
  obtain ⟨hcheck, r, s, hr, hrun, rfl⟩ := solve_eq_ok hreport
  obtain ⟨-, -, -, -, hlog⟩ := Settings.check_eq_ok_iff.mp hcheck
  obtain ⟨r', hr', hmirrors⟩ := h.start hr
  have hlimited := Run.limited_of_reaches hr .refl
  obtain ⟨s', hrun', hends⟩ := hmirrors.run h hlog htime hlimited hrun
  rw [← h.settings] at hcheck
  exact ⟨_, solve_of_run hcheck hr' hrun', hends.finish _ _⟩

end Search.Mirrors

end BranchBound
