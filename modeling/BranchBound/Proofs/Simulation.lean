import BranchBound.Proofs.Coverage
import BranchBound.Proofs.Progress

/-!
# Runs held against each other

Two runs are compared visit by visit: if each visit of the first one is matched by some visits of
the second one, then the second one comes to its end with the first (`exists_run_of_visits`), and if
the first one leaves nothing out, that is asked only of visits that do not
(`exists_run_of_simulation`). The searches may differ, and so may the clocks.

What is compared are the calls, which are read off the journal. A visit asks the relaxation once if
the budget allows it, the box is new and the estimate may improve on the incumbent
(`State.asks`, `calls_of_visit`). A run that does less than another one has some of its calls, in
the same order, and smaller counters (`Run.NoLonger`).
-/

namespace BranchBound

variable {α : Type} [Scalar α] {search : Search α}

/-! ## Calls of a visit -/

/-- What the calls that events record asked for, in order. -/
def requestsIn (events : List (Event α)) : List (Node α × Option (Cutoff α)) :=
  (events.filterMap Event.call?).map fun call => (call.node, call.cutoff)

/-- The nodes of the calls that events record, in order. -/
def askedIn (events : List (Event α)) : List (Node α) :=
  (events.filterMap Event.call?).map Call.node

omit [Scalar α] in
theorem askedIn_eq (events : List (Event α)) :
    askedIn events = (requestsIn events).map Prod.fst := by
  unfold askedIn requestsIn
  rw [List.map_map]
  rfl

omit [Scalar α] in
theorem requestsIn_append (first second : List (Event α)) :
    requestsIn (first ++ second) = requestsIn first ++ requestsIn second := by
  unfold requestsIn
  rw [List.filterMap_append, List.map_append]

omit [Scalar α] in
theorem askedIn_append (first second : List (Event α)) :
    askedIn (first ++ second) = askedIn first ++ askedIn second := by
  rw [askedIn_eq, requestsIn_append, List.map_append, ← askedIn_eq, ← askedIn_eq]

section

variable {elapsed : Nat} {σ : State α} {node : Node α} {v : Visit α}

omit [Scalar α] in
theorem calls_progress {report : List (Event α)}
    (h : Visit.progress search elapsed σ = .ok report) : report.filterMap Event.call? = [] := by
  unfold Visit.progress at h
  split at h
  · rw [← Except.ok.inj h]
    rfl
  · split at h
    · cases h
    · split at h
      · rw [← Except.ok.inj h]
        rfl
      · rw [← Except.ok.inj h]
        rfl

theorem calls_of_asks {answer : Answer α} {events : List (Event α)}
    (asks : Visit.Asks search elapsed σ node answer events) :
    events.filterMap Event.call? =
      [⟨node, search.criteria.cutoff? σ.board.bestValue, answer⟩] := by
  obtain ⟨report, hreport, rfl⟩ := asks.reported
  show _ :: report.filterMap Event.call? = _
  rw [calls_progress hreport]

/-- Whether a visit asks the relaxation about its node. -/
def State.asks (search : Search α) (elapsed : Nat) (σ : State α) (node : Node α) : Bool :=
  σ.budget.allows elapsed && (σ.visited.mark node).1 &&
    search.criteria.mayImprove node.estimate σ.board.bestValue

theorem Visit.Asks.asks {answer : Answer α} {events : List (Event α)}
    (h : Visit.Asks search elapsed σ node answer events) : σ.asks search elapsed node = true := by
  unfold State.asks
  rw [h.allowed, h.isNew, h.promising]
  rfl

/-- A visit asks about its node, within the incumbent's cutoff, and counts that, or it does
neither. -/
theorem calls_of_visit (h : visit search elapsed σ node = .ok v) :
    if σ.asks search elapsed node then
      (∃ answer, search.relaxation σ.board.solved node
          (search.criteria.cutoff? σ.board.bestValue) = .ok answer ∧
        v.events.filterMap Event.call? =
          [⟨node, search.criteria.cutoff? σ.board.bestValue, answer⟩]) ∧
        v.state.board.solved = σ.board.solved + 1
    else v.events.filterMap Event.call? = [] ∧ v.state.board.solved = σ.board.solved := by
  cases Visit.course_of_visit h with
  | outOfBudget hnot | seenBefore _ hnot | unpromising _ _ hnot =>
    rw [if_neg (by simp [State.asks, hnot])]
    exact ⟨rfl, rfl⟩
  | noPoint asks =>
    rw [if_pos asks.asks]
    refine ⟨⟨_, asks.answered, ?_⟩, rfl⟩
    rw [Visit.close, List.filterMap_append, calls_of_asks asks]
    rfl
  | overCeiling asks =>
    rw [if_pos asks.asks]
    refine ⟨⟨_, asks.answered, ?_⟩, rfl⟩
    rw [List.filterMap_append, calls_of_asks asks]
    rfl
  | unusable asks =>
    rw [if_pos asks.asks]
    refine ⟨⟨_, asks.answered, ?_⟩, rfl⟩
    rw [Visit.close, List.filterMap_append, List.filterMap_append, calls_of_asks asks]
    rfl
  | whole takes =>
    rw [if_pos takes.asks]
    refine ⟨⟨_, takes.answered, ?_⟩, Scoreboard.solved_offer _ _ _⟩
    rw [Visit.close, List.filterMap_append, List.filterMap_append, calls_of_asks takes.toAsks]
    split <;> rfl
  | dominated takes =>
    rw [if_pos takes.asks]
    refine ⟨⟨_, takes.answered, ?_⟩, rfl⟩
    rw [Visit.close, List.filterMap_append, calls_of_asks takes.toAsks]
    rfl
  | split takes =>
    rw [if_pos takes.asks]
    refine ⟨⟨_, takes.answered, ?_⟩, rfl⟩
    rw [List.filterMap_append, calls_of_asks takes.toAsks]
    rfl

theorem requests_of_visit (h : visit search elapsed σ node = .ok v) :
    if σ.asks search elapsed node then
      requestsIn v.events = [(node, search.criteria.cutoff? σ.board.bestValue)] ∧
        v.state.board.solved = σ.board.solved + 1
    else requestsIn v.events = [] ∧ v.state.board.solved = σ.board.solved := by
  have hcalls := calls_of_visit h
  unfold requestsIn
  by_cases hasks : σ.asks search elapsed node = true
  · rw [if_pos hasks] at hcalls ⊢
    obtain ⟨⟨answer, -, hcall⟩, hsolved⟩ := hcalls
    rw [hcall]
    exact ⟨rfl, hsolved⟩
  · rw [if_neg hasks] at hcalls ⊢
    rw [hcalls.1]
    exact ⟨rfl, hcalls.2⟩

/-- A visit that leaves nothing out asks about its node if the estimate may improve on the
incumbent, and counts that. -/
theorem asked_of_visit (hnew : (σ.visited.mark node).1 = true)
    (hexhaustive : v.outcome.isExhaustive = true) (h : visit search elapsed σ node = .ok v) :
    if search.criteria.mayImprove node.estimate σ.board.bestValue then
      askedIn v.events = [node] ∧ v.state.board.solved = σ.board.solved + 1
    else askedIn v.events = [] ∧ v.state.board.solved = σ.board.solved := by
  have hrequests := requests_of_visit h
  have hasks : σ.asks search elapsed node =
      search.criteria.mayImprove node.estimate σ.board.bestValue := by
    unfold State.asks
    rw [allows_of_isExhaustive hexhaustive h, hnew]
    rfl
  rw [hasks] at hrequests
  rw [askedIn_eq]
  split at hrequests
  · rename_i hpromising
    rw [if_pos hpromising, hrequests.1]
    exact ⟨rfl, hrequests.2⟩
  · rename_i hnot
    rw [if_neg hnot, hrequests.1]
    exact ⟨rfl, hrequests.2⟩

end

/-! ## Plain runs -/

namespace Run

/-- A coherent run within the limits of the settings, without a set of visited boxes. -/
structure Plain (search : Search α) (r : Run α) : Prop where
  coherent : r.Coherent search
  limited : r.state.budget.Limited search.settings
  unmarked : r.state.visited.enabled = false

variable {r : Run α} {node : Node α} {rest : List (Node α)} {elapsed : Nat} {v : Visit α}

theorem Plain.isNew (h : r.Plain search) (node : Node α) :
    (r.state.visited.mark node).1 = true := by
  rw [Visited.mark_of_not_enabled h.unmarked]

theorem Plain.of_visit (h : r.Plain search) (hpending : r.pending = node :: rest)
    (hv : visit search elapsed r.state node = .ok v) : (r.absorb rest v).Plain search := by
  refine ⟨h.coherent.of_advances (advances_of_visit hpending hv), ?_, ?_⟩
  · rw [state_absorb]
    exact limited_of_visit hv h.limited
  · rw [state_absorb]
    rcases visited_of_visit hv with hmark | hsame
    · rw [hmark, Visited.mark_of_not_enabled h.unmarked]
      exact h.unmarked
    · rw [hsame]
      exact h.unmarked

theorem plain_start {warmStart : Option (Array α)} (hdedup : search.settings.dedup = false)
    (h : search.start warmStart = .ok r) : r.Plain search := by
  obtain ⟨-, hopens, -⟩ := Search.start_eq_ok h
  refine ⟨coherent_start h, ?_, ?_⟩
  · rw [hopens.budget]
    rfl
  · rw [hopens.visited]
    exact hdedup

/-! ## Runs that do less -/

/-- A run whose calls are among those of another one, with no more of them counted and no more
iterations spent. -/
structure NoLonger (warm cold : Run α) : Prop where
  asked : (askedIn warm.journal.toList).Sublist (askedIn cold.journal.toList)
  solved : warm.state.board.solved ≤ cold.state.board.solved
  iterations : warm.state.budget.iterations ≤ cold.state.budget.iterations

omit [Scalar α] in
theorem askedIn_absorb : askedIn (r.absorb rest v).journal.toList =
    askedIn r.journal.toList ++ askedIn v.events := by
  rw [journal_absorb, ← askedIn_append]
  simp

namespace NoLonger

variable {warm cold : Run α} {rest' : List (Node α)} {elapsed' : Nat} {w : Visit α}

/-- A visit of the longer run alone keeps the other one no longer. -/
theorem of_visit (h : NoLonger warm cold) (hplain : cold.Plain search)
    (hexhaustive : v.outcome.isExhaustive = true)
    (hv : visit search elapsed cold.state node = .ok v) :
    NoLonger warm (cold.absorb rest v) := by
  refine ⟨?_, ?_, ?_⟩
  · rw [askedIn_absorb]
    exact h.asked.trans (List.sublist_append_left _ _)
  · have hasked := asked_of_visit (hplain.isNew node) hexhaustive hv
    rw [state_absorb]
    split at hasked
    · rw [hasked.2]
      exact h.solved.trans (Nat.le_succ _)
    · rw [hasked.2]
      exact h.solved
  · rw [state_absorb]
    exact h.iterations.trans (iterations_of_visit hv).1

/-- Visits of one node by both runs keep one no longer than the other, if what it asks and spends
the other one does. -/
theorem of_visits (h : NoLonger warm cold) (hwarm : warm.Plain search) (hcold : cold.Plain search)
    (hpromising : search.criteria.mayImprove node.estimate warm.state.board.bestValue = true →
      search.criteria.mayImprove node.estimate cold.state.board.bestValue = true)
    (hspent : w.state.budget = warm.state.budget.spend → v.state.budget = cold.state.budget.spend)
    (hve : v.outcome.isExhaustive = true) (hv : visit search elapsed cold.state node = .ok v)
    (hwe : w.outcome.isExhaustive = true) (hw : visit search elapsed' warm.state node = .ok w) :
    NoLonger (warm.absorb rest' w) (cold.absorb rest v) := by
  have hva := asked_of_visit (hcold.isNew node) hve hv
  have hwa := asked_of_visit (hwarm.isNew node) hwe hw
  refine ⟨?_, ?_, ?_⟩
  · rw [askedIn_absorb, askedIn_absorb]
    refine h.asked.append ?_
    split at hwa
    · rename_i hp
      rw [if_pos (hpromising hp)] at hva
      rw [hva.1, hwa.1]
    · rw [hwa.1]
      exact List.nil_sublist _
  · rw [state_absorb, state_absorb]
    split at hwa
    · rename_i hp
      rw [if_pos (hpromising hp)] at hva
      rw [hva.2, hwa.2]
      exact Nat.succ_le_succ h.solved
    · rw [hwa.2]
      split at hva
      · rw [hva.2]
        exact h.solved.trans (Nat.le_succ _)
      · rw [hva.2]
        exact h.solved
  · rw [state_absorb, state_absorb]
    rcases spends_of_visit hw with ⟨hsame, -⟩ | hspend
    · rw [hsame]
      exact h.iterations.trans (iterations_of_visit hv).1
    · rw [hspend, hspent hspend]
      exact Nat.succ_le_succ h.iterations

end NoLonger

end Run

/-! ## Simulation -/

/-- A run comes to its end with another one if it follows each visit of that one by some visits of
its own, or by none. -/
theorem exists_run_of_visits {search' : Search α} {clock clock' : Nat → Nat}
    {P : Run α → Run α → Prop} {s : Run α}
    (hstep : ∀ {r r' : Run α} {node : Node α} {rest : List (Node α)} {v : Visit α}, P r r' →
      r.pending = node :: rest → visit search (clock r.visits) r.state node = .ok v →
      run search clock (r.absorb rest v) = .ok s →
      ∃ next, P (r.absorb rest v) next ∧ run search' clock' r' = run search' clock' next)
    (hend : ∀ {r r' : Run α}, P r r' → r.pending = [] → r'.pending = [])
    {r r' : Run α} (h : P r r') (hrun : run search clock r = .ok s) :
    ∃ t, run search' clock' r' = .ok t ∧ P s t := by
  fun_induction run search clock r generalizing r' with
  | case1 r e hfail => cases hrun
  | case2 r hdone =>
    obtain rfl := Except.ok.inj hrun
    exact ⟨r', run_of_pending_eq_nil (hend h (Run.pending_of_step_eq_ok_none hdone)), h⟩
  | case3 r next hnext _ ih =>
    obtain ⟨node, rest, v, hpending, hv, rfl⟩ := Run.step_eq_ok_some hnext
    obtain ⟨after, hafter, hsame⟩ := hstep h hpending hv hrun
    obtain ⟨t, ht, hP⟩ := ih hafter hrun
    exact ⟨t, hsame.trans ht, hP⟩

/-- Only visits that leave nothing out have to be followed if the run leaves nothing out. -/
theorem exists_run_of_simulation {search' : Search α} {clock clock' : Nat → Nat}
    {P : Run α → Run α → Prop} {s : Run α}
    (hstep : ∀ {r r' : Run α} {node : Node α} {rest : List (Node α)} {v : Visit α}, P r r' →
      r.pending = node :: rest → visit search (clock r.visits) r.state node = .ok v →
      v.outcome.isExhaustive = true → run search clock (r.absorb rest v) = .ok s →
      ∃ next, P (r.absorb rest v) next ∧ run search' clock' r' = run search' clock' next)
    (hend : ∀ {r r' : Run α}, P r r' → r.pending = [] → r'.pending = [])
    {r r' : Run α} (h : P r r') (hrun : run search clock r = .ok s)
    (hcomplete : s.complete = true) :
    ∃ t, run search' clock' r' = .ok t ∧ P s t := by
  refine exists_run_of_visits (fun hP hpending hv hafter => ?_) hend h hrun
  have hkept := Run.complete_of_reaches (reaches_of_run hafter).1 hcomplete
  rw [Run.complete_absorb, Bool.and_eq_true] at hkept
  exact hstep hP hpending hv hkept.2 hafter

theorem Run.requests_finish (r : Run α) (elapsed : Nat) :
    requestsIn (r.finish elapsed).journal.toList = requestsIn r.journal.toList :=
  congrArg (List.map fun call : Call α => (call.node, call.cutoff)) (r.calls_finish elapsed)

theorem Run.callsOf_finish (r : Run α) (elapsed : Nat) :
    (callsOf (r.finish elapsed).journal).map Call.node = askedIn r.journal.toList := by
  rw [askedIn_eq, ← requests_finish r elapsed, ← askedIn_eq]
  rfl

/-- A problem of which some point is accepted knows its whole variables. -/
theorem Search.known_of_accepts {x : Array α} (h : search.acceptsStart x = .ok true) :
    ∀ var ∈ search.problem.integers, var < search.problem.size := by
  unfold acceptsStart at h
  split at h
  · rename_i hchecked
    rw [Bool.and_eq_true] at hchecked
    intro var hvar
    rw [← eq_of_beq hchecked.1]
    exact Criteria.size_of_allWhole h var (Array.mem_toList_iff.mpr hvar)
  · cases h

end BranchBound
