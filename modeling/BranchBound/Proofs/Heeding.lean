import BranchBound.Proofs.Double.Parabola
import BranchBound.Proofs.Simulation
import BranchBound.Proofs.Thresholds

/-!
# Cutoffs as hints

The cutoff that a search hands to its relaxation is a hint. A relaxation may be deaf to it
(`Relaxation.plain`) or heed it, and keep a point to itself whose objective value is excluded
(`Relaxation.Heeds`). Without a gap a search cannot tell (`cutoff_is_hint`): it makes the same calls
and finds the same.

The two runs are abreast (`Run.Abreast`): they have the same pending nodes and the same incumbent at
every visit. Where the cutoff excludes a point, the heeding run closes the node at once; the deaf
one counts an iteration, and then the point does not improve on the incumbent if it is whole, and
its value may not if it is not. What tells the runs apart are the iterations and the offers.
-/

namespace BranchBound

open Lawful

/-! ## Relaxations and the cutoff -/

section

variable {α : Type} [Scalar α]

/-- Gives one answer for each node, whatever the cutoff. -/
def Relaxation.plain (R : Node α → Answer α) : Relaxation α := fun _ node _ => .ok (R node)

/-- Whether the cutoff for an incumbent excludes an objective value. -/
def Criteria.excludes (c : Criteria α) (best : Option α) (objective : α) : Bool :=
  (c.cutoff? best).any (·.excludes objective)

/-- The cutoff excludes what the threshold beats. -/
theorem Criteria.excludes_some {c : Criteria α} {best objective : α} :
    c.excludes (some best) objective = c.sense.better (c.threshold best) objective := by
  unfold excludes
  cases h : c.cutoff? (some best) with
  | none => cases h
  | some limit => exact excludes_cutoff h

/-- Whether a relaxation gives the answers of `R`, except that it has no point where the cutoff
excludes the objective value of the point. -/
def Relaxation.Heeds (relaxation : Relaxation α) (problem : Problem α) (R : Node α → Answer α) :
    Prop :=
  ∀ call node cutoff, ∃ answer, relaxation call node cutoff = .ok answer ∧
    if (R node).verdict.isFeasible &&
        !cutoff.any (·.excludes (problem.objective (R node).point)) then answer = R node
    else answer.verdict.isFeasible = false

/-- Gives one answer for each node, but reports that there is no point if the cutoff excludes the
objective value of the answer. -/
def Relaxation.heeding (problem : Problem α) (R : Node α → Answer α) : Relaxation α :=
  fun _ node cutoff =>
    .ok (if cutoff.any (·.excludes (problem.objective (R node).point)) then .infeasible else R node)

theorem Relaxation.heeds_heeding (problem : Problem α) (R : Node α → Answer α) :
    (heeding problem R).Heeds problem R := by
  intro call node cutoff
  refine ⟨_, rfl, ?_⟩
  cases hcut : cutoff.any (·.excludes (problem.objective (R node).point)) with
  | true =>
    rw [Bool.not_true, Bool.and_false]
    rfl
  | false =>
    cases hfeasible : (R node).verdict.isFeasible with
    | true => rfl
    | false => exact hfeasible

/-- The answer that a search gets from a relaxation that heeds the cutoff. -/
theorem Relaxation.Heeds.answer {search : Search α} {R : Node α → Answer α} {elapsed : Nat}
    {σ : State α} {node : Node α} {answer : Answer α} {events : List (Event α)}
    (h : search.relaxation.Heeds search.problem R)
    (asks : Visit.Asks search elapsed σ node answer events) :
    if (R node).verdict.isFeasible &&
        !search.criteria.excludes σ.board.bestValue (search.problem.objective (R node).point)
    then answer = R node else answer.verdict.isFeasible = false := by
  obtain ⟨answer', hanswered, hanswer⟩ := h σ.board.solved node
    (search.criteria.cutoff? σ.board.bestValue)
  rw [asks.answered] at hanswered
  obtain rfl := Except.ok.inj hanswered
  exact hanswer

/-- A search gets a point exactly if there is one and the cutoff does not exclude its value. -/
theorem Relaxation.Heeds.isFeasible_iff {search : Search α} {R : Node α → Answer α} {elapsed : Nat}
    {σ : State α} {node : Node α} {answer : Answer α} {events : List (Event α)}
    (h : search.relaxation.Heeds search.problem R)
    (asks : Visit.Asks search elapsed σ node answer events) :
    answer.verdict.isFeasible = true ↔ answer = R node ∧ (R node).verdict.isFeasible = true ∧
      search.criteria.excludes σ.board.bestValue (search.problem.objective (R node).point) =
        false := by
  have hanswer := h.answer asks
  split at hanswer
  · rename_i hgiven
    rw [Bool.and_eq_true, Bool.not_eq_true'] at hgiven
    subst hanswer
    exact ⟨fun hfeasible => ⟨rfl, hgiven⟩, fun ⟨_, hfeasible, _⟩ => hfeasible⟩
  · rename_i hnot
    rw [hanswer]
    constructor
    · intro hfeasible
      cases hfeasible
    · rintro ⟨-, hfeasible, hcut⟩
      rw [hfeasible, hcut] at hnot
      exact absurd rfl hnot

end

/-! ## Offers without a gap -/

section

variable {α : Type} [Scalar α]

/-- Recounting the offers changes nothing else about an offer. -/
theorem Scoreboard.offer_recount (board : Scoreboard α) (count : Nat) (x : Array α) (value : α) :
    ({ board with offers := count }.offer x value).2 =
      { (board.offer x value).2 with offers := count + 1 } := by
  have himproves : ({ board with offers := count } : Scoreboard α).countOffer.improves value =
      board.countOffer.improves value := rfl
  unfold offer commit
  dsimp only
  rw [himproves]
  split
  · rfl
  · split <;> rfl

/-- A point that does not improve on the incumbent is only counted. -/
theorem Scoreboard.offer_of_not_improves {board : Scoreboard α} {x : Array α} {value : α}
    (h : board.improves value = false) : board.offer x value = (false, board.countOffer) := by
  have himproves : board.countOffer.improves value = false := h
  unfold offer
  dsimp only
  rw [himproves, Bool.not_false, Bool.or_true, if_pos rfl]

end

section

variable {α : Type} [Scalar α] [Lawful α] {c : Criteria α}

/-- Without a gap, what the cutoff excludes may not improve on the incumbent, nor beat it. -/
theorem Criteria.of_excludes (hg : value c.relativeGap = .ofRat 0)
    (ha : value c.absoluteGap = .ofRat 0) {best : Option α} {objective : α}
    (h : c.excludes best objective = true) : c.mayImprove objective best = false ∧
      ∃ old, best = some old ∧ c.sense.better objective old = false := by
  cases best with
  | none => cases h
  | some old =>
    rw [excludes_some, Sense.better_iff, value_threshold hg ha] at h
    refine ⟨?_, old, rfl, ?_⟩
    · rw [mayImprove_eq_false_iff, Sense.noWorse_iff, value_threshold hg ha]
      exact Sense.noWorse_of_better h
    · rw [Sense.better_iff]
      exact Sense.not_better_of_noWorse (Sense.noWorse_of_better h)

end

/-! ## Searches abreast -/

variable {α : Type} {search : Search α} {R : Node α → Answer α} {heeding : Relaxation α}

/-- The same search with another relaxation. -/
def Search.withRelaxation (search : Search α) (relaxation : Relaxation α) : Search α :=
  { search with relaxation }

/-- The state of a heeding search beside that of a deaf one: they tell apart in the number of offers
and in the iterations, of which the deaf one has spent no less. -/
structure State.Abreast (search : Search α) (deaf heard : State α) : Prop where
  board : ∃ count, heard.board = { deaf.board with offers := count }
  visited : heard.visited = deaf.visited
  limitedDeaf : deaf.budget.Limited search.settings
  limitedHeard : heard.budget.Limited search.settings
  iterations : heard.budget.iterations ≤ deaf.budget.iterations

/-- What has to hold of two searches for them to keep abreast: there is no gap, the one is deaf and
the other one heeds the cutoff, and all points can be used. -/
structure Search.Alike [Scalar α] [Lawful α] (search : Search α) (R : Node α → Answer α)
    (heeding : Relaxation α) : Prop where
  relativeGap : value search.settings.relativeGap = .ofRat 0
  absoluteGap : value search.settings.absoluteGap = .ofRat 0
  deaf : search.relaxation = .plain R
  heeds : heeding.Heeds search.problem R
  usable : ∀ node : Node α, node.IsOver search.problem → (R node).verdict.isFeasible = true →
    Visit.isUsable search (R node).point = true
  logFrequency : search.settings.logFrequency ≠ 0

namespace State.Abreast

variable {deaf heard : State α} {node : Node α} {elapsed elapsed' : Nat} {v : Visit α}

theorem bestValue (h : State.Abreast search deaf heard) :
    heard.board.bestValue = deaf.board.bestValue := by
  obtain ⟨count, hboard⟩ := h.board
  rw [hboard]
  rfl

/-- Where the deaf search asks, the heeding one asks too and gets an answer. -/
theorem exists_asks [Scalar α] [Lawful α] (hs : search.Alike R heeding)
    (h : State.Abreast search deaf heard)
    (htime : search.settings.timeLimit = none ∨ elapsed' ≤ elapsed) {answer : Answer α}
    {events : List (Event α)} (asks : Visit.Asks search elapsed deaf node answer events) :
    ∃ answer' events',
      Visit.Asks (search.withRelaxation heeding) elapsed' heard node answer' events' ∧
      answer = R node ∧
      if (R node).verdict.isFeasible && !search.criteria.excludes deaf.board.bestValue
          (search.problem.objective (R node).point) then answer' = R node
      else answer'.verdict.isFeasible = false := by
  have hanswered := asks.answered
  rw [hs.deaf] at hanswered
  obtain ⟨answer', hanswered', hanswer'⟩ := hs.heeds heard.board.solved node
    (search.criteria.cutoff? deaf.board.bestValue)
  have hlog : (search.withRelaxation heeding).settings.logFrequency ≠ 0 := hs.logFrequency
  obtain ⟨report, hreport⟩ := progress_ok hlog elapsed' (heard.asked node)
  refine ⟨answer', _, ⟨?_, ?_, ?_, ?_, report, hreport, rfl⟩, (Except.ok.inj hanswered).symm,
    hanswer'⟩
  · exact h.limitedDeaf.allows h.limitedHeard h.iterations htime asks.allowed
  · rw [h.visited]
    exact asks.isNew
  · rw [h.bestValue]
    exact asks.promising
  · rw [h.bestValue]
    exact hanswered'

theorem marked (h : State.Abreast search deaf heard) (node : Node α) :
    State.Abreast search (deaf.marked node) (heard.marked node) :=
  ⟨h.board, by unfold State.marked; rw [h.visited], h.limitedDeaf, h.limitedHeard, h.iterations⟩

theorem asked (h : State.Abreast search deaf heard) (node : Node α) :
    State.Abreast search (deaf.asked node) (heard.asked node) := by
  obtain ⟨count, hboard⟩ := h.board
  refine ⟨⟨count, ?_⟩, (h.marked node).visited, h.limitedDeaf, h.limitedHeard, h.iterations⟩
  unfold State.asked
  rw [hboard]
  rfl

/-- The deaf search counts an iteration where the heeding one closes the node. -/
theorem counted_asked (h : State.Abreast search deaf heard) (node : Node α) :
    State.Abreast search (deaf.counted node) (heard.asked node) :=
  ⟨(h.asked node).board, (h.asked node).visited, h.limitedDeaf.spend, h.limitedHeard,
    h.iterations.trans (Nat.le_succ _)⟩

theorem counted (h : State.Abreast search deaf heard) (node : Node α) :
    State.Abreast search (deaf.counted node) (heard.counted node) :=
  ⟨(h.asked node).board, (h.asked node).visited, h.limitedDeaf.spend, h.limitedHeard.spend,
    Nat.succ_le_succ h.iterations⟩

section

variable [Scalar α]

theorem offered (h : State.Abreast search deaf heard) (node : Node α) (x : Array α) (value : α) :
    State.Abreast search (deaf.offered node x value) (heard.offered node x value) := by
  obtain ⟨count, hboard⟩ := (h.asked node).board
  replace hboard : heard.board.countSolved = { deaf.board.countSolved with offers := count } :=
    hboard
  refine ⟨⟨count + 1, ?_⟩, (h.counted node).visited, (h.counted node).limitedDeaf,
    (h.counted node).limitedHeard, (h.counted node).iterations⟩
  show (heard.board.countSolved.offer x value).2 = _
  rw [hboard, Scoreboard.offer_recount]
  rfl

/-- An offer of the deaf search that does not improve on its incumbent is only a count. -/
theorem offered_asked (h : State.Abreast search deaf heard) (node : Node α) {x : Array α}
    {value : α} (hnot : deaf.board.improves value = false) :
    State.Abreast search (deaf.offered node x value) (heard.asked node) := by
  obtain ⟨count, hboard⟩ := (h.asked node).board
  refine ⟨⟨count, ?_⟩, (h.counted_asked node).visited, (h.counted_asked node).limitedDeaf,
    (h.counted_asked node).limitedHeard, (h.counted_asked node).iterations⟩
  have hoffer : deaf.board.countSolved.offer x value =
      (false, deaf.board.countSolved.countOffer) :=
    Scoreboard.offer_of_not_improves hnot
  rw [hboard]
  show _ = ({ (deaf.board.countSolved.offer x value).2 with offers := count } : Scoreboard α)
  rw [hoffer]
  rfl

end

section

variable [Scalar α] [Lawful α] (hs : search.Alike R heeding) (h : State.Abreast search deaf heard)
  (htime : search.settings.timeLimit = none ∨ elapsed' ≤ elapsed)

include hs h htime

/-- The heeding search closes a node whose point it does not get. -/
theorem exists_visit_of_not_given {answer : Answer α} {events : List (Event α)}
    (asks : Visit.Asks search elapsed deaf node answer events)
    (hnot : (answer.verdict.isFeasible && !search.criteria.excludes deaf.board.bestValue
      (search.problem.objective answer.point)) = false) :
    ∃ w, visit (search.withRelaxation heeding) elapsed' heard node = .ok w ∧
      w.outcome.isExhaustive = true ∧ w.outcome.children = [] ∧ w.state = heard.asked node := by
  obtain ⟨answer', events', asks', hanswer, hanswer'⟩ := h.exists_asks hs htime asks
  rw [← hanswer, hnot] at hanswer'
  exact ⟨_, Visit.visit_eq_ok_iff.mpr (.noPoint asks' hanswer'), rfl, rfl, rfl⟩

/-- The heeding search takes a point that it gets. -/
theorem exists_takes {answer : Answer α} {events : List (Event α)}
    (takes : Visit.Takes search elapsed deaf node answer events)
    (hgiven : search.criteria.excludes deaf.board.bestValue
      (search.problem.objective answer.point) = false) :
    ∃ events', Visit.Takes (search.withRelaxation heeding) elapsed' heard node answer events' := by
  obtain ⟨answer', events', asks', hanswer, hanswer'⟩ := h.exists_asks hs htime takes.toAsks
  subst hanswer
  rw [takes.feasible, hgiven] at hanswer'
  obtain rfl : answer' = R node := hanswer'
  exact ⟨events', asks', takes.feasible,
    h.limitedDeaf.isExhausted_spend h.limitedHeard h.iterations takes.affordable, takes.usable⟩

/-- What the deaf search does at a node that it leaves nothing out at, the heeding one does too, up
to the counts. -/
theorem exists_visit (hsense : deaf.board.sense = search.problem.sense)
    (hexhaustive : v.outcome.isExhaustive = true) (hv : visit search elapsed deaf node = .ok v) :
    ∃ w, visit (search.withRelaxation heeding) elapsed' heard node = .ok w ∧
      w.outcome.isExhaustive = true ∧ w.outcome.children = v.outcome.children ∧
      State.Abreast search v.state w.state := by
  have hallows := h.limitedDeaf.allows h.limitedHeard h.iterations htime
    (allows_of_isExhaustive hexhaustive hv)
  cases Visit.course_of_visit hv with
  | outOfBudget => cases hexhaustive
  | overCeiling => cases hexhaustive
  | unusable => cases hexhaustive
  | seenBefore _ hseen =>
    rw [← h.visited] at hseen
    exact ⟨_, Visit.visit_eq_ok_iff.mpr (.seenBefore hallows hseen), rfl, rfl, h.marked node⟩
  | unpromising _ hnew hnot =>
    rw [← h.visited] at hnew
    rw [← h.bestValue] at hnot
    exact ⟨_, Visit.visit_eq_ok_iff.mpr (.unpromising hallows hnew hnot), rfl, rfl, h.marked node⟩
  | @noPoint answer events asks hnone =>
    obtain ⟨w, hw, hwe, hchildren, hstate⟩ :=
      h.exists_visit_of_not_given hs htime asks (by rw [hnone]; rfl)
    refine ⟨w, hw, hwe, hchildren, ?_⟩
    rw [hstate]
    exact h.asked node
  | @whole answer events takes hbranching =>
    cases hcut : search.criteria.excludes deaf.board.bestValue
      (search.problem.objective answer.point) with
    | true =>
      obtain ⟨-, old, hold, hnot⟩ :=
        Criteria.of_excludes hs.relativeGap hs.absoluteGap hcut
      obtain ⟨w, hw, hwe, hchildren, hstate⟩ :=
        h.exists_visit_of_not_given hs htime takes.toAsks (by rw [hcut]; simp)
      refine ⟨w, hw, hwe, hchildren, ?_⟩
      rw [hstate]
      refine h.offered_asked node ?_
      unfold Scoreboard.improves
      rw [hold, hsense]
      exact hnot
    | false =>
      obtain ⟨events', takes'⟩ := h.exists_takes hs htime takes hcut
      exact ⟨_, Visit.visit_eq_ok_iff.mpr (.whole takes' hbranching), rfl, rfl,
        h.offered node answer.point (search.problem.objective answer.point)⟩
  | @dominated answer events branching takes hbranching hnot =>
    cases hcut : search.criteria.excludes deaf.board.bestValue
      (search.problem.objective answer.point) with
    | true =>
      obtain ⟨w, hw, hwe, hchildren, hstate⟩ :=
        h.exists_visit_of_not_given hs htime takes.toAsks (by rw [hcut]; simp)
      refine ⟨w, hw, hwe, hchildren, ?_⟩
      rw [hstate]
      exact h.counted_asked node
    | false =>
      obtain ⟨events', takes'⟩ := h.exists_takes hs htime takes hcut
      rw [← h.bestValue] at hnot
      exact ⟨_, Visit.visit_eq_ok_iff.mpr (.dominated takes' hbranching hnot), rfl, rfl,
        h.counted node⟩
  | @split answer events branching s takes hbranching improves hsplit =>
    cases hcut : search.criteria.excludes deaf.board.bestValue
      (search.problem.objective answer.point) with
    | true =>
      rw [(Criteria.of_excludes hs.relativeGap hs.absoluteGap hcut).1] at improves
      cases improves
    | false =>
      obtain ⟨events', takes'⟩ := h.exists_takes hs htime takes hcut
      rw [← h.bestValue] at improves
      exact ⟨_, Visit.visit_eq_ok_iff.mpr (.split takes' hbranching improves hsplit), rfl, rfl,
        h.counted node⟩

end

end State.Abreast

/-! ## Runs abreast -/

namespace Run

variable {deaf heard : Run α} {node : Node α} {rest : List (Node α)} {elapsed elapsed' : Nat}
  {v : Visit α}

/-- A heeding run beside a deaf one: they have the same nodes to visit, and made the same calls. -/
structure Abreast [Scalar α] (search : Search α) (deaf heard : Run α) : Prop where
  coherent : deaf.Coherent search
  state : State.Abreast search deaf.state heard.state
  pending : heard.pending = deaf.pending
  complete : heard.complete = true
  visits : heard.visits = deaf.visits
  requests : requestsIn heard.journal.toList = requestsIn deaf.journal.toList

variable [Scalar α] [Lawful α]

/-- A visit of the deaf run is matched by one of the heeding run. -/
theorem Abreast.exists_of_visit (hs : search.Alike R heeding) (h : Abreast search deaf heard)
    (htime : search.settings.timeLimit = none ∨ elapsed' ≤ elapsed)
    (hpending : deaf.pending = node :: rest) (hexhaustive : v.outcome.isExhaustive = true)
    (hv : visit search elapsed deaf.state node = .ok v) :
    ∃ w, visit (search.withRelaxation heeding) elapsed' heard.state node = .ok w ∧
      Abreast search (deaf.absorb rest v) (heard.absorb rest w) := by
  obtain ⟨w, hw, hwe, hchildren, hstate⟩ :=
    h.state.exists_visit hs htime h.coherent.sense hexhaustive hv
  refine ⟨w, hw, h.coherent.of_advances (advances_of_visit hpending hv), ?_, ?_, ?_, ?_, ?_⟩
  · rw [state_absorb, state_absorb]
    exact hstate
  · rw [pending_absorb, pending_absorb, hchildren]
  · rw [complete_absorb, h.complete, hwe]
    rfl
  · rw [visits_absorb, visits_absorb, h.visits]
  · -- both ask or neither does, within the same cutoff
    have hasks : heard.state.asks (search.withRelaxation heeding) elapsed' node =
        deaf.state.asks search elapsed node := by
      unfold State.asks
      rw [h.state.visited, h.state.bestValue, allows_of_isExhaustive hexhaustive hv,
        allows_of_isExhaustive hwe hw]
      rfl
    have hdeaf := requests_of_visit hv
    have hheard := requests_of_visit hw
    rw [hasks, h.state.bestValue] at hheard
    have hsame : requestsIn w.events = requestsIn v.events := by
      split at hheard
      · rename_i hask
        rw [if_pos hask] at hdeaf
        rw [hheard.1, hdeaf.1]
        rfl
      · rename_i hask
        rw [if_neg hask] at hdeaf
        rw [hheard.1, hdeaf.1]
    simp only [journal_absorb, Array.toList_appendList, requestsIn_append, h.requests, hsame]

omit [Lawful α] in
/-- Both runs start alike. -/
theorem abreast_start (heeding : Relaxation α) {warmStart : Option (Array α)} {r : Run α}
    (h : search.start warmStart = .ok r) :
    (search.withRelaxation heeding).start warmStart = .ok r ∧ Abreast search r r := by
  obtain ⟨-, hopens, hcomplete, -⟩ := Search.start_eq_ok h
  have hlimited : r.state.budget.Limited search.settings := by
    rw [hopens.budget]
    rfl
  exact ⟨h, coherent_start h, ⟨⟨r.state.board.offers, rfl⟩, rfl, hlimited, hlimited, le_rfl⟩, rfl,
    hcomplete, rfl, rfl⟩

end Run

/-! ## Runs that leave nothing out -/

section

variable [Scalar α] {elapsed : Nat} {σ : State α} {node : Node α} {v : Visit α}

/-- A visit that leaves something out though the points can be used leaves its node to the budget or
passes the ceiling. -/
theorem isExhaustive_or_of_visit
    (husable : ∀ {answer : Answer α} {events : List (Event α)},
      Visit.Asks search elapsed σ node answer events → answer.verdict.isFeasible = true →
      Visit.isUsable search answer.point = true) (h : visit search elapsed σ node = .ok v) :
    v.outcome.isExhaustive = true ∨ .budgetExceeded ∈ v.events.filterMap Event.fate? ∨
      v.state.budget.isExhausted = true := by
  cases Visit.course_of_visit h with
  | outOfBudget => exact Or.inr (Or.inl List.mem_cons_self)
  | overCeiling _ _ hover => exact Or.inr (Or.inr hover)
  | unusable asks feasible _ hnot =>
    rw [husable asks feasible] at hnot
    cases hnot
  | seenBefore | unpromising | noPoint | whole | dominated | split => exact Or.inl rfl

theorem isExhausted_of_visit (h : visit search elapsed σ node = .ok v)
    (hexhausted : σ.budget.isExhausted = true) : v.state.budget.isExhausted = true := by
  rcases spends_of_visit h with ⟨hsame, -⟩ | hspent
  · rw [hsame]
    exact hexhausted
  · rw [hspent]
    exact decide_eq_true ((of_decide_eq_true hexhausted).trans (Nat.lt_succ_self _))

/-- A run whose points can be used leaves nothing out, or it left a node to the budget, or it passed
the ceiling. -/
theorem Run.complete_or_of_reaches
    (husable : ∀ {elapsed : Nat} {σ : State α} {node : Node α} {answer : Answer α}
      {events : List (Event α)}, node.IsOver search.problem →
      Visit.Asks search elapsed σ node answer events → answer.verdict.isFeasible = true →
      Visit.isUsable search answer.point = true)
    {start r : Run α} (hcoherent : start.Coherent search) (hcomplete : start.complete = true)
    (h : Reaches search start r) : r.complete = true ∨ .budgetExceeded ∈ fatesOf r.journal ∨
      r.state.budget.isExhausted = true := by
  refine (invariant_of_reaches (P := fun r => r.Coherent search ∧ (r.complete = true ∨
    .budgetExceeded ∈ fatesOf r.journal ∨ r.state.budget.isExhausted = true))
    (fun hstep ⟨hr, hcases⟩ => ⟨hr.of_advances hstep, ?_⟩) h ⟨hcoherent, Or.inl hcomplete⟩).2
  obtain ⟨before, after, node, elapsed, v, hperm, hvisit, rfl⟩ := hstep.exists_visit
  have hover := hr.isOver node (hperm.mem_iff.mpr List.mem_cons_self)
  rw [complete_absorb, state_absorb, Bool.and_eq_true, journal_absorb, fatesOf,
    Array.toList_appendList, List.filterMap_append, List.mem_append]
  rcases hcases with hcomplete | hleft | hexhausted
  · rcases isExhaustive_or_of_visit (husable hover) hvisit with hkept | hleft | hexhausted
    · exact Or.inl ⟨hcomplete, hkept⟩
    · exact Or.inr (Or.inl (Or.inr hleft))
    · exact Or.inr (Or.inr hexhausted)
  · exact Or.inr (Or.inl (Or.inl hleft))
  · exact Or.inr (Or.inr (isExhausted_of_visit hvisit hexhausted))

theorem Run.mem_fates_finish {r : Run α} {fate : Fate} (h : fate ∈ fatesOf r.journal)
    (elapsed : Nat) : fate ∈ fatesOf (r.finish elapsed).journal := by
  unfold fatesOf finish at *
  simp only [Array.toList_push, Array.toList_append, List.filterMap_append, List.mem_append]
  exact Or.inl (Or.inl h)

/-- A run whose relaxation is deaf to the cutoff leaves nothing out if its report says that no node
was left to the budget and the ceiling was not passed. -/
theorem Run.complete_of_plain (hR : search.relaxation = .plain R)
    (husable : ∀ node : Node α, node.IsOver search.problem → (R node).verdict.isFeasible = true →
      Visit.isUsable search (R node).point = true) {warmStart : Option (Array α)} {start r : Run α}
    (hstart : search.start warmStart = .ok start) (h : Reaches search start r)
    (hbudget : .budgetExceeded ∉ fatesOf (r.finish elapsed).journal)
    (hceiling : (r.finish elapsed).solution.iterations ≤ search.settings.iterationCeiling) :
    r.complete = true := by
  have hgiven : ∀ {elapsed : Nat} {σ : State α} {node : Node α} {answer : Answer α}
      {events : List (Event α)}, node.IsOver search.problem →
      Visit.Asks search elapsed σ node answer events → answer.verdict.isFeasible = true →
      Visit.isUsable search answer.point = true := by
    intro elapsed σ node answer events hover asks hfeasible
    have hanswered := asks.answered
    rw [hR] at hanswered
    obtain rfl : R node = answer := Except.ok.inj hanswered
    exact husable node hover hfeasible
  rcases complete_or_of_reaches hgiven (coherent_start hstart)
    (Search.start_eq_ok hstart).2.2.1 h with hkept | hleft | hexhausted
  · exact hkept
  · exact absurd (mem_fates_finish hleft elapsed) hbudget
  · have hlimited := limited_of_reaches hstart h
    unfold Budget.Limited at hlimited
    rw [hlimited] at hexhausted
    exact absurd (of_decide_eq_true hexhausted) (not_lt.mpr hceiling)

end

/-! ## The hint -/

/-- Without a gap, the cutoff is only a hint to the relaxation. If a search whose relaxation is deaf
to it leaves no node to the budget and does not pass the ceiling, then a relaxation that heeds it is
asked about the same nodes within the same cutoffs, in the same order, and the search finds the
same. It may count fewer iterations and offers. If there is a time limit, its clock may not be
behind. -/
theorem cutoff_is_hint [Scalar α] [Lawful α] {search : Search α} {R : Node α → Answer α}
    {heeding : Relaxation α} (hR : search.relaxation = .plain R)
    (hheeds : heeding.Heeds search.problem R)
    (husable : ∀ node : Node α, node.IsOver search.problem → (R node).verdict.isFeasible = true →
      Visit.isUsable search (R node).point = true)
    (hg : value search.settings.relativeGap = .ofRat 0)
    (ha : value search.settings.absoluteGap = .ofRat 0) {warmStart : Option (Array α)}
    {clock clock' : Nat → Nat}
    (htime : search.settings.timeLimit = none ∨ ∀ n, clock' n ≤ clock n) {deaf : Report α}
    (hdeaf : search.solve warmStart clock = .ok deaf)
    (hbudget : .budgetExceeded ∉ fatesOf deaf.journal)
    (hceiling : deaf.solution.iterations ≤ search.settings.iterationCeiling) :
    ∃ heard, (search.withRelaxation heeding).solve warmStart clock' = .ok heard ∧
      requestsIn heard.journal.toList = requestsIn deaf.journal.toList ∧
      heard.solution.status = deaf.solution.status ∧
      heard.solution.point = deaf.solution.point ∧
      heard.solution.objective = deaf.solution.objective ∧
      heard.solution.solved = deaf.solution.solved ∧
      heard.solution.improvements = deaf.solution.improvements := by
  obtain ⟨hcheck, r, s, hstart, hrun, rfl⟩ := Search.solve_eq_ok hdeaf
  obtain ⟨-, -, -, -, hlog⟩ := Settings.check_eq_ok_iff.mp hcheck
  have hs : search.Alike R heeding := ⟨hg, ha, hR, hheeds, husable, hlog⟩
  obtain ⟨hstart', habreast⟩ := Run.abreast_start heeding hstart
  obtain ⟨hreaches, -⟩ := reaches_of_run hrun
  have hcomplete := Run.complete_of_plain hR husable hstart hreaches hbudget hceiling
  obtain ⟨t, ht, h⟩ : ∃ t, run (search.withRelaxation heeding) clock' r = .ok t ∧
      Run.Abreast search s t := by
    refine exists_run_of_simulation (fun h hpending hv hexhaustive _ => ?_)
      (fun h hdone => h.pending.trans hdone) habreast hrun hcomplete
    obtain ⟨w, hw, hnext⟩ := h.exists_of_visit hs
      (by rw [← h.visits]; exact htime.imp_right fun hle => hle _) hpending hexhaustive hv
    exact ⟨_, hnext, run_of_visit (h.pending.trans hpending) hw⟩
  obtain ⟨count, hboard⟩ := h.state.board
  refine ⟨t.finish (clock' t.visits), Search.solve_of_run hcheck hstart' ht, ?_, ?_⟩
  · rw [Run.requests_finish, Run.requests_finish, h.requests]
  · unfold Run.finish Run.solution Scoreboard.bestValue
    rw [hboard, h.complete, hcomplete]
    exact ⟨rfl, rfl, rfl, rfl, rfl⟩

/-- The parabola, searched from nothing: both searches ask three times, and the heeding one does not
count the point two, whose value is excluded once the point one was found. -/
theorem cutoff_is_hint_parabola : ∃ deaf heard,
    let search := Parabola.search (.plain Parabola.answers)
    let heeding := search.withRelaxation (.heeding Parabola.problem Parabola.answers)
    search.solve none (fun _ => 0) = .ok deaf ∧ heeding.solve none (fun _ => 0) = .ok heard ∧
      (requestsIn heard.journal.toList).length = 3 ∧ heard.solution.status = .optimal ∧
      deaf.solution.iterations = 3 ∧ heard.solution.iterations = 2 := by
  let search := Parabola.search (.plain Parabola.answers)
  let heeding := search.withRelaxation (.heeding Parabola.problem Parabola.answers)
  have hrun : (search.solve none (fun _ => 0)).toOption.map (fun report =>
      ((requestsIn report.journal.toList).length, report.solution.status,
        report.solution.iterations, fatesOf report.journal)) =
      some (3, .optimal, 3, [.branched, .integerFound, .integerFound]) := by decide +kernel
  have hrun' : (heeding.solve none (fun _ => 0)).toOption.map
      (fun report => report.solution.iterations) = some 2 := by decide +kernel
  obtain ⟨deaf, hdeaf, hfound⟩ := exists_of_toOption_map hrun
  simp only [Prod.mk.injEq] at hfound
  obtain ⟨hrequests, hstatus, hiterations, hfates⟩ := hfound
  have hplain : search.relaxation = .plain Parabola.answers := rfl
  obtain ⟨heard, hheard, hsame, hverdict, -⟩ := cutoff_is_hint hplain
    (Relaxation.heeds_heeding Parabola.problem Parabola.answers)
    (fun node _ h => Parabola.isUsable_answers h) (by decide +kernel) (by decide +kernel)
    (Or.inl rfl) hdeaf (by rw [hfates]; decide) (by rw [hiterations]; decide +kernel)
  rw [hheard] at hrun'
  exact ⟨deaf, heard, hdeaf, hheard, by rw [hsame, hrequests], by rw [hverdict, hstatus],
    hiterations, Option.some.inj hrun'⟩

end BranchBound
