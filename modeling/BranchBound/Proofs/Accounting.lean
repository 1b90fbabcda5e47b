import BranchBound.Proofs.OneRow.WholePrograms
import BranchBound.Proofs.Simulation

/-!
# Accounts of a search

What the verdict and the counters of a search say about its tree, for every relaxation, whether it
is sound or not.

The journal of a search is read as a list of endings (`endingsOf`): each node that was come to, how
it ended, and the call that was made for it. One visit adds one ending (`Visit.exists_records`), and
the children of the ending are what the visit leaves to be visited. So along every schedule the
nodes that ended and those that are pending are the root and the children of the endings
(`Run.Accounted`), and when nothing is pending the whole tree is accounted for (`solve_accounts`).
-/

namespace BranchBound

variable {α : Type}

/-! ## Endings -/

/-- How a node ended: its fate, unless it passed the ceiling, what it branched on, and the call that
was made for it. -/
structure Ending (α : Type) where
  node : Node α
  fate : Option Fate
  branching : Option (Branching α)
  call : Option (Call α)

/-- The ending that an event records, after this call for the node. -/
def Event.ending? (call : Option (Call α)) : Event α → Option (Ending α)
  | closed node fate => some ⟨node, some fate, none, call⟩
  | branched node branching _ => some ⟨node, some .branched, some branching, call⟩
  | ceilingPassed node _ _ => some ⟨node, none, none, call⟩
  | _ => none

/-- The endings that events record, after this call for the node that is being visited. -/
def endingsFrom (call : Option (Call α)) : List (Event α) → List (Ending α)
  | [] => []
  | event :: later =>
    match event.ending? call with
    | some ending => ending :: endingsFrom none later
    | none => endingsFrom (event.call?.or call) later

/-- The endings of a journal, in order. -/
def endingsOf (journal : Array (Event α)) : List (Ending α) := endingsFrom none journal.toList

namespace Ending

/-- Whether nothing was left out at the node, its children apart. -/
def isExhaustive (e : Ending α) : Bool := e.fate.any Fate.isExhaustive

/-- Whether the relaxation gave a point for the node. -/
def hasPoint (e : Ending α) : Bool := e.call.any (·.answer.verdict.isFeasible)

/-- The children of the node: it was split on its branching, at the value of its point. -/
def children [Scalar α] (search : Search α) (e : Ending α) : List (Node α) :=
  match e.branching, e.call with
  | some branching, some call =>
    match e.node.split branching (search.problem.objective call.answer.point) with
    | .ok s => [s.continued, s.forked]
    | .error _ => []
  | _, _ => []

/-- How the parts of an ending go together. A node without a call was over the budget, seen before,
or pruned, and a node with a call was one of the first two in no case. A call is about its node, and
has no point exactly if that is how the node ended. There are two children if the node branched, and
none otherwise. -/
structure Fits [Scalar α] (search : Search α) (e : Ending α) : Prop where
  unasked : e.call = none →
    e.fate = some .budgetExceeded ∨ e.fate = some .duplicate ∨ e.fate = some .pruned
  asked : ∀ call, e.call = some call → call.node = e.node ∧
    e.fate ≠ some .budgetExceeded ∧ e.fate ≠ some .duplicate ∧
    (call.answer.verdict.isFeasible = false ↔ e.fate = some .infeasibleOrFailed)
  length_children : (e.children search).length = if e.fate = some .branched then 2 else 0

end Ending

/-- How the node of an outcome ended, unless it passed the ceiling. -/
def Outcome.fate? : Outcome α → Option Fate
  | closed fate => some fate
  | branched _ _ => some .branched
  | ceilingPassed _ _ => none

theorem Outcome.isExhaustive_eq (o : Outcome α) :
    o.isExhaustive = o.fate?.any Fate.isExhaustive := by
  cases o <;> rfl

/-! ## Reading a journal -/

/-- An event that neither ends a node nor records a call. -/
def Event.IsQuiet (event : Event α) : Prop := event.call? = none ∧ event.ended? = none

theorem Event.ending?_eq_none {event : Event α} (h : event.ended? = none)
    (call : Option (Call α)) : event.ending? call = none := by
  cases event with
  | closed | branched | ceilingPassed => cases h
  | _ => rfl

theorem Event.node_of_ending? {event : Event α} {call : Option (Call α)} {e : Ending α}
    (h : event.ending? call = some e) : event.ended? = some e.node ∧ event.fate? = e.fate := by
  cases event with
  | closed | branched | ceilingPassed =>
    obtain rfl := Option.some.inj h
    exact ⟨rfl, rfl⟩
  | _ => cases h

/-- Quiet events are read over. -/
theorem endingsFrom_quiet {quiet : List (Event α)} (h : ∀ event ∈ quiet, event.IsQuiet)
    (call : Option (Call α)) (later : List (Event α)) :
    endingsFrom call (quiet ++ later) = endingsFrom call later := by
  induction quiet with
  | nil => rfl
  | cons event others ih =>
    obtain ⟨hcall, hended⟩ := h event List.mem_cons_self
    show (match event.ending? call with | some _ => _ | none => _) = _
    rw [Event.ending?_eq_none hended, hcall]
    exact ih fun event hmem => h event (List.mem_cons_of_mem _ hmem)

theorem calls_quiet {quiet : List (Event α)} (h : ∀ event ∈ quiet, event.IsQuiet) :
    quiet.filterMap Event.call? = [] :=
  List.filterMap_eq_nil_iff.mpr fun event hmem => (h event hmem).1

theorem Event.fate?_eq_none {event : Event α} (h : event.ended? = none) : event.fate? = none := by
  cases event with
  | closed | branched | ceilingPassed => cases h
  | _ => rfl

/-- Quiet events end no node. -/
theorem ended_quiet {quiet : List (Event α)} (h : ∀ event ∈ quiet, event.IsQuiet) :
    quiet.filterMap Event.ended? = [] ∧ quiet.filterMap Event.fate? = [] :=
  ⟨List.filterMap_eq_nil_iff.mpr fun event hmem => (h event hmem).2,
    List.filterMap_eq_nil_iff.mpr fun event hmem => Event.fate?_eq_none (h event hmem).2⟩

/-- The endings of events are about the nodes that these end, with their fates. -/
theorem nodes_endingsFrom (call : Option (Call α)) (events : List (Event α)) :
    (endingsFrom call events).map Ending.node = events.filterMap Event.ended? ∧
      (endingsFrom call events).filterMap Ending.fate = events.filterMap Event.fate? := by
  induction events generalizing call with
  | nil => exact ⟨rfl, rfl⟩
  | cons event later ih =>
    unfold endingsFrom
    cases hending : event.ending? call with
    | some e =>
      obtain ⟨hended, hfate⟩ := Event.node_of_ending? hending
      obtain ⟨hnodes, hfates⟩ := ih none
      simp only [List.map_cons, List.filterMap_cons, hended, hfate, hnodes, hfates, and_self]
    | none =>
      obtain ⟨hnodes, hfates⟩ := ih (event.call?.or call)
      -- an event that is no ending has neither a node nor a fate
      have hended : event.ended? = none := by
        cases event with
        | closed | branched | ceilingPassed => cases hending
        | _ => rfl
      simp only [List.filterMap_cons, hended, Event.fate?_eq_none hended, hnodes, hfates, and_self]

variable [Scalar α]

/-! ## The ending of a visit -/

omit [Scalar α] in
theorem Budget.isExhausted_of_allows {b : Budget} {elapsed : Nat} (h : b.allows elapsed = true) :
    b.isExhausted = false := by
  simp only [Budget.allows, Bool.and_eq_true, Bool.not_eq_true'] at h
  exact h.1.1

section

variable {search : Search α} {elapsed : Nat} {σ : State α} {node : Node α} {v : Visit α}

/-- A visit records one ending, which says what was counted and what is left to be visited. -/
structure Visit.Records (search : Search α) (σ : State α) (node : Node α) (v : Visit α)
    (e : Ending α) : Prop where
  node : e.node = node
  reads : ∀ later, endingsFrom none (v.events ++ later) = e :: endingsFrom none later
  calls : v.events.filterMap Event.call? = e.call.toList
  fits : e.Fits search
  children : v.outcome.children = e.children search
  fate : v.outcome.fate? = e.fate
  solved : v.state.board.solved = σ.board.solved + if e.call.isSome then 1 else 0
  iterations : v.state.budget.iterations = σ.budget.iterations + if e.hasPoint then 1 else 0
  offers : v.state.board.offers = σ.board.offers + if e.fate = some .integerFound then 1 else 0
  exhausted : v.state.budget.isExhausted = (σ.budget.isExhausted || e.fate.isNone)

omit [Scalar α] in
theorem quiet_progress {report : List (Event α)}
    (h : Visit.progress search elapsed σ = .ok report) : ∀ event ∈ report, event.IsQuiet := by
  unfold Visit.progress at h
  split at h
  · rw [← Except.ok.inj h]
    simp
  · split at h
    · cases h
    · split at h
      · rw [← Except.ok.inj h]
        intro event hmem
        rw [List.mem_singleton] at hmem
        rw [hmem]
        exact ⟨rfl, rfl⟩
      · rw [← Except.ok.inj h]
        simp

/-- The events of a visit that asked: the call, quiet ones, and the end of the node. -/
theorem reads_of_asks {answer : Answer α} {events : List (Event α)} (quiet : List (Event α))
    (last : Event α) {e : Ending α} (asks : Visit.Asks search elapsed σ node answer events)
    (hquiet : ∀ event ∈ quiet, event.IsQuiet) (hcall : last.call? = none)
    (hlast : last.ending? (some ⟨node, search.criteria.cutoff? σ.board.bestValue, answer⟩) =
      some e) :
    (∀ later, endingsFrom none ((events ++ quiet ++ [last]) ++ later) =
        e :: endingsFrom none later) ∧
      (events ++ quiet ++ [last]).filterMap Event.call? =
        [⟨node, search.criteria.cutoff? σ.board.bestValue, answer⟩] := by
  obtain ⟨report, hreport, rfl⟩ := asks.reported
  have hreport := quiet_progress hreport
  constructor
  · intro later
    rw [List.append_assoc, List.append_assoc, List.cons_append]
    show endingsFrom (some ⟨node, _, answer⟩) _ = _
    rw [endingsFrom_quiet hreport, endingsFrom_quiet hquiet]
    show (match last.ending? _ with | some _ => _ | none => _) = _
    rw [hlast]
    rfl
  · rw [List.filterMap_append, List.filterMap_append, calls_quiet hquiet, List.append_nil]
    show _ :: report.filterMap Event.call? ++ [last].filterMap Event.call? = _
    rw [calls_quiet hreport, List.filterMap_cons, hcall]
    rfl

/-- A node that was closed without a call. -/
theorem records_unasked {τ : State α} {fate : Fate} (hboard : τ.board = σ.board)
    (hbudget : τ.budget = σ.budget)
    (hfate : fate = .budgetExceeded ∨ fate = .duplicate ∨ fate = .pruned) :
    (Visit.close τ [] node fate).Records search σ node ⟨node, some fate, none, none⟩ where
  node := rfl
  reads later := rfl
  calls := rfl
  fits := by
    refine ⟨fun _ => by simpa using hfate, fun call hcall => (nomatch hcall), ?_⟩
    rcases hfate with rfl | rfl | rfl <;> rfl
  children := rfl
  fate := rfl
  solved := congrArg Scoreboard.solved hboard
  iterations := congrArg Budget.iterations hbudget
  offers := by
    rcases hfate with rfl | rfl | rfl <;> exact congrArg Scoreboard.offers hboard
  exhausted := by
    rw [Option.isNone_some, Bool.or_false]
    exact congrArg Budget.isExhausted hbudget

/-- A node that was closed after a call. -/
theorem records_closed (τ : State α) {answer : Answer α} {events : List (Event α)}
    (quiet : List (Event α)) (fate : Fate) (asks : Visit.Asks search elapsed σ node answer events)
    (hquiet : ∀ event ∈ quiet, event.IsQuiet)
    (hfate : fate ≠ .budgetExceeded ∧ fate ≠ .duplicate ∧ fate ≠ .branched)
    (hpoint : answer.verdict.isFeasible = false ↔ fate = .infeasibleOrFailed)
    (hsolved : τ.board.solved = σ.board.solved + 1)
    (hiterations : τ.budget.iterations =
      σ.budget.iterations + if answer.verdict.isFeasible then 1 else 0)
    (hoffers : τ.board.offers = σ.board.offers + if fate = .integerFound then 1 else 0)
    (hexhausted : τ.budget.isExhausted = false) :
    (Visit.close τ (events ++ quiet) node fate).Records search σ node
      ⟨node, some fate, none, some ⟨node, search.criteria.cutoff? σ.board.bestValue, answer⟩⟩ := by
  obtain ⟨hendings, hcalls⟩ := reads_of_asks quiet (.closed node fate) asks hquiet rfl rfl
  refine ⟨rfl, hendings, hcalls, ⟨fun h => (nomatch h), ?_, ?_⟩, rfl, rfl, hsolved, hiterations,
    ?_, ?_⟩
  · intro call hcall
    obtain rfl := Option.some.inj hcall
    simpa using ⟨hfate.1, hfate.2.1, hpoint⟩
  · simp [hfate.2.2, Ending.children]
  · show τ.board.offers = _
    simpa using hoffers
  · rw [Budget.isExhausted_of_allows asks.allowed]
    exact hexhausted

/-- Every visit records one ending. -/
theorem Visit.exists_records (h : visit search elapsed σ node = .ok v) :
    ∃ e, v.Records search σ node e := by
  cases Visit.course_of_visit h with
  | outOfBudget => exact ⟨_, records_unasked rfl rfl (Or.inl rfl)⟩
  | seenBefore => exact ⟨_, records_unasked rfl rfl (Or.inr (Or.inl rfl))⟩
  | unpromising => exact ⟨_, records_unasked rfl rfl (Or.inr (Or.inr rfl))⟩
  | @noPoint answer events asks hnone =>
    have hrecords := records_closed (σ.asked node) [] .infeasibleOrFailed asks (by simp) (by simp)
      (by simp [hnone]) rfl (by simp [hnone]) rfl (Budget.isExhausted_of_allows asks.allowed)
    rw [List.append_nil] at hrecords
    exact ⟨_, hrecords⟩
  | @unusable answer events asks feasible affordable hnot =>
    exact ⟨_, records_closed _ [_] .invalid asks
      (by simp [Event.IsQuiet, Event.call?, Event.ended?]) (by simp) (by simp [feasible]) rfl
      (by simp [feasible, Budget.spend]) rfl affordable⟩
  | @whole answer events takes hbranching =>
    refine ⟨_, records_closed _ _ .integerFound takes.toAsks ?_ (by simp) (by simp [takes.feasible])
      (Scoreboard.solved_offer _ _ _) ?_ (Scoreboard.offers_offer _ _ _) takes.affordable⟩
    · split <;> simp [Event.IsQuiet, Event.call?, Event.ended?]
    · rw [takes.feasible]
      rfl
  | @dominated answer events branching takes =>
    have hrecords := records_closed (σ.counted node) [] .pruned takes.toAsks (by simp) (by simp)
      (by simp [takes.feasible]) rfl (by simp [takes.feasible, Budget.spend]) rfl takes.affordable
    rw [List.append_nil] at hrecords
    exact ⟨_, hrecords⟩
  | @overCeiling answer events asks feasible hover =>
    obtain ⟨hendings, hcalls⟩ := reads_of_asks []
      (.ceilingPassed node σ.budget.spend.iterations σ.budget.ceiling) asks (by simp) rfl rfl
    rw [List.append_nil] at hendings hcalls
    refine ⟨_, rfl, hendings, hcalls, ⟨fun h => absurd h (Option.some_ne_none _), ?_, rfl⟩, rfl, rfl,
      rfl, ?_, rfl, ?_⟩
    · intro call hcall
      obtain rfl := Option.some.inj hcall
      simp [feasible]
    · simp [Ending.hasPoint, feasible, Budget.spend]
    · rw [Option.isNone_none, Bool.or_true]
      exact hover
  | @split answer events branching s takes hbranching improves hsplit =>
    obtain ⟨hendings, hcalls⟩ := reads_of_asks []
      (.branched node branching s.direction) takes.toAsks (by simp) rfl rfl
    rw [List.append_nil] at hendings hcalls
    have hchildren : Ending.children search ⟨node, some .branched, some branching,
        some ⟨node, search.criteria.cutoff? σ.board.bestValue, answer⟩⟩ =
        [s.continued, s.forked] := by
      unfold Ending.children
      simp only [hsplit]
    refine ⟨_, rfl, hendings, hcalls, ⟨fun h => absurd h (Option.some_ne_none _), ?_, ?_⟩,
      hchildren.symm, rfl, rfl, ?_, rfl, ?_⟩
    · intro call hcall
      obtain rfl := Option.some.inj hcall
      simp [takes.feasible]
    · rw [hchildren]
      rfl
    · simp [Ending.hasPoint, takes.feasible, Budget.spend]
    · rw [Budget.isExhausted_of_allows takes.allowed]
      exact takes.affordable

end

/-! ## The endings of a run -/

/-- What the endings of a run say about it, for a search that counted `seeds` points before its
first visit. -/
structure Run.Accounted (search : Search α) (seeds : Nat) (r : Run α) (endings : List (Ending α)) :
    Prop where
  reads : ∀ later, endingsFrom none (r.journal.toList ++ later) = endings ++ endingsFrom none later
  calls : callsOf r.journal = endings.filterMap Ending.call
  fits : ∀ e ∈ endings, e.Fits search
  tree : (endings.map Ending.node ++ r.pending).Perm
    (search.root :: endings.flatMap (Ending.children search))
  complete : r.complete = endings.all Ending.isExhaustive
  solved : r.state.board.solved = endings.countP (·.call.isSome)
  iterations : r.state.budget.iterations = endings.countP Ending.hasPoint
  offers : r.state.board.offers = endings.countP (·.fate = some .integerFound) + seeds
  exhausted : r.state.budget.isExhausted = endings.any (·.fate.isNone)

namespace Run

variable {search : Search α} {seeds : Nat} {r s : Run α} {endings : List (Ending α)}

/-- A visit adds the ending that it records. -/
theorem Accounted.of_records {node : Node α} {rest : List (Node α)} {v : Visit α} {e : Ending α}
    (hr : r.Accounted search seeds endings) (hperm : r.pending.Perm (node :: rest))
    (he : v.Records search r.state node e) :
    (r.absorb rest v).Accounted search seeds (endings ++ [e]) := by
  refine ⟨?_, ?_, ?_, ?_, ?_, ?_, ?_, ?_, ?_⟩
  · intro later
    rw [journal_absorb, Array.toList_appendList, List.append_assoc, hr.reads, he.reads,
      List.append_assoc]
    rfl
  · have hcalls : r.journal.toList.filterMap Event.call? = endings.filterMap Ending.call := hr.calls
    rw [journal_absorb, callsOf, Array.toList_appendList, List.filterMap_append, hcalls, he.calls,
      List.filterMap_append]
    cases hcall : e.call <;> simp [hcall]
  · intro e' hmem
    rcases List.mem_append.mp hmem with hold | hnew
    · exact hr.fits e' hold
    · rw [List.mem_singleton.mp hnew]
      exact he.fits
  · -- the node takes its place among the endings, and its children take its place
    rw [pending_absorb, he.children, List.map_append, List.map_singleton, he.node,
      List.flatMap_append, List.flatMap_singleton, List.append_assoc, List.singleton_append]
    have hrest : (endings.map Ending.node ++ node :: rest).Perm
        (search.root :: endings.flatMap (Ending.children search)) :=
      (hperm.symm.append_left _).trans hr.tree
    refine List.Perm.trans ?_ (hrest.append_right (e.children search))
    rw [List.append_assoc, List.cons_append]
    exact (List.perm_append_comm.cons node).append_left _
  · rw [complete_absorb, hr.complete, Outcome.isExhaustive_eq, he.fate]
    simp [Ending.isExhaustive]
  · rw [state_absorb, he.solved, hr.solved, List.countP_append, List.countP_singleton]
  · rw [state_absorb, he.iterations, hr.iterations, List.countP_append, List.countP_singleton]
  · rw [state_absorb, he.offers, hr.offers, List.countP_append, List.countP_singleton]
    simp only [decide_eq_true_eq]
    omega
  · rw [state_absorb, he.exhausted, hr.exhausted]
    simp

/-- One visit adds one ending. -/
theorem Accounted.of_advances (hr : r.Accounted search seeds endings)
    (h : Advances search r s) : ∃ e, s.Accounted search seeds (endings ++ [e]) := by
  obtain ⟨before, after, node, elapsed, v, hperm, hvisit, rfl⟩ := h.exists_visit
  obtain ⟨e, he⟩ := Visit.exists_records hvisit
  exact ⟨e, hr.of_records hperm he⟩

/-- Along every schedule the endings account for the run. -/
theorem Accounted.of_reaches (hr : r.Accounted search seeds endings) (h : Reaches search r s) :
    ∃ endings, s.Accounted search seeds endings :=
  invariant_of_reaches (P := fun s => ∃ endings, s.Accounted search seeds endings)
    (fun hstep ⟨_, hr⟩ => (hr.of_advances hstep).imp' (_ ++ [·]) fun _ h => h) h ⟨endings, hr⟩

end Run

/-! ## Starting and ending -/

/-- Number of points that a search offers before its first visit. -/
def Search.seeds (search : Search α) (warmStart : Option (Array α)) : Nat :=
  match warmStart.map search.acceptsStart with
  | some (.ok true) => 1
  | _ => 0

/-- A run starts with quiet events, its counters at zero but for the warm start. -/
theorem Search.quiet_start {search : Search α} {warmStart : Option (Array α)} {r : Run α}
    (h : search.start warmStart = .ok r) : (∀ event ∈ r.journal.toList, event.IsQuiet) ∧
      r.state.board.solved = 0 ∧ r.state.board.offers = search.seeds warmStart := by
  obtain ⟨σ, events, hseeds, rfl⟩ := start_eq_ok_iff.mp h
  cases hseeds with
  | cold => simp [opening, Event.IsQuiet, Event.call?, Event.ended?, State.initial, seeds]
  | ignored hx => simp [opening, Event.IsQuiet, Event.call?, Event.ended?, State.initial, seeds, hx]
  | accepted hx =>
    simp [opening, Event.IsQuiet, Event.call?, Event.ended?, State.initial, seeds, hx,
      Scoreboard.offers_offer]

namespace Run

variable {search : Search α} {warmStart : Option (Array α)} {r : Run α} {endings : List (Ending α)}

/-- A run starts without endings. -/
theorem accounted_start (h : search.start warmStart = .ok r) :
    r.Accounted search (search.seeds warmStart) [] := by
  obtain ⟨hpending, hopens, hcomplete, -, -, hcalls⟩ := Search.start_eq_ok h
  obtain ⟨hjournal, hsolved, hoffers⟩ := Search.quiet_start h
  refine ⟨endingsFrom_quiet hjournal none, hcalls, fun e he => (nomatch he), ?_, hcomplete,
    hsolved, ?_, ?_, ?_⟩
  · rw [hpending]
    exact List.Perm.refl _
  · rw [hopens.budget]
    rfl
  · rw [hoffers]
    exact (Nat.zero_add _).symm
  · rw [hopens.budget]
    exact decide_eq_false (Nat.not_lt_zero _)

/-- What ends a journal is quiet. -/
theorem journal_finish (r : Run α) (elapsed : Nat) : ∃ last, (∀ event ∈ last, event.IsQuiet) ∧
    (r.finish elapsed).journal.toList = r.journal.toList ++ last := by
  let s := r.solution elapsed
  let finished : Event α := .finished s.status s.objective s.solved s.offers s.elapsed
  cases haborted : r.aborted with
  | none =>
    refine ⟨[finished], by simp [finished, Event.IsQuiet, Event.call?, Event.ended?], ?_⟩
    simp [finish, haborted, finished, s]
  | some passed =>
    refine ⟨[.aborted passed.1 passed.2, finished], ?_, ?_⟩
    · simp [finished, Event.IsQuiet, Event.call?, Event.ended?]
    · simp [finish, haborted, finished, s]

/-- The report of a run has its endings and its calls. -/
theorem Accounted.finish {seeds : Nat} (h : r.Accounted search seeds endings) (elapsed : Nat) :
    endingsOf (r.finish elapsed).journal = endings ∧
      callsOf (r.finish elapsed).journal = callsOf r.journal := by
  refine ⟨?_, r.calls_finish elapsed⟩
  obtain ⟨last, hquiet, hjournal⟩ := journal_finish r elapsed
  have hlast := endingsFrom_quiet hquiet none []
  rw [List.append_nil] at hlast
  unfold endingsOf
  rw [hjournal, h.reads, hlast]
  exact List.append_nil endings

end Run

/-! ## The account -/

/-- The whole tree of a search, as its report accounts for it. -/
structure Report.Accounts (search : Search α) (warmStart : Option (Array α)) (report : Report α) :
    Prop where
  /-- The verdict is final exactly if no node was left to the budget or abandoned, and the ceiling
  was not passed. -/
  verdict : report.solution.status = .optimal ∨ report.solution.status = .infeasible ↔
    .budgetExceeded ∉ fatesOf report.journal ∧ .invalid ∉ fatesOf report.journal ∧
      report.solution.iterations ≤ search.settings.iterationCeiling
  /-- Every node has an ending of its own, and the calls are those of the endings. -/
  nodes : nodesOf report.journal = (endingsOf report.journal).map Ending.node
  fates : fatesOf report.journal = (endingsOf report.journal).filterMap Ending.fate
  calls : callsOf report.journal = (endingsOf report.journal).filterMap Ending.call
  fits : ∀ e ∈ endingsOf report.journal, e.Fits search
  /-- The nodes that the search came to are the root and the children of those that branched. -/
  tree : (nodesOf report.journal).Perm
    (search.root :: (endingsOf report.journal).flatMap (Ending.children search))
  length_nodes : (nodesOf report.journal).length =
    2 * (fatesOf report.journal).count .branched + 1
  solved : report.solution.solved = (callsOf report.journal).length
  iterations : report.solution.iterations =
    (callsOf report.journal).countP (·.answer.verdict.isFeasible)
  offers : report.solution.offers =
    (fatesOf report.journal).count .integerFound + search.seeds warmStart

/-- The children of endings are two for each that branched. -/
theorem length_children {search : Search α} {endings : List (Ending α)}
    (h : ∀ e ∈ endings, e.Fits search) :
    (endings.flatMap (Ending.children search)).length =
      2 * (endings.filterMap Ending.fate).count .branched := by
  induction endings with
  | nil => rfl
  | cons e others ih =>
    have hothers := ih fun e' he' => h e' (List.mem_cons_of_mem e he')
    rw [List.flatMap_cons, List.length_append, hothers, (h e List.mem_cons_self).length_children]
    cases hfate : e.fate with
    | none => simp [hfate]
    | some fate =>
      rw [List.filterMap_cons, hfate]
      cases fate <;> simp
      omega

omit [Scalar α] in
/-- A run leaves something out if a node was left to the budget, abandoned, or passed the
ceiling. -/
theorem all_isExhaustive_iff {endings : List (Ending α)} :
    endings.all Ending.isExhaustive = true ↔ .budgetExceeded ∉ endings.filterMap Ending.fate ∧
      .invalid ∉ endings.filterMap Ending.fate ∧ endings.any (·.fate.isNone) = false := by
  induction endings with
  | nil => simp
  | cons e others ih =>
    rw [List.all_cons, Bool.and_eq_true, ih, List.any_cons, Bool.or_eq_false_iff]
    cases hfate : e.fate with
    | none => simp [hfate, Ending.isExhaustive]
    | some fate =>
      rw [List.filterMap_cons, hfate]
      cases fate <;> simp [Ending.isExhaustive, hfate, Fate.isExhaustive]

/-- A run without pending nodes is accounted for by its report. -/
theorem Run.Accounted.accounts {search : Search α} {warmStart : Option (Array α)} {r : Run α}
    {endings : List (Ending α)} (h : r.Accounted search (search.seeds warmStart) endings)
    (hlimited : r.state.budget.Limited search.settings) (hpending : r.pending = [])
    (elapsed : Nat) : (r.finish elapsed).Accounts search warmStart := by
  obtain ⟨hendings, hcalls⟩ := h.finish elapsed
  have hnodes : nodesOf (r.finish elapsed).journal =
      (endingsOf (r.finish elapsed).journal).map Ending.node := (nodes_endingsFrom none _).1.symm
  have hfates : fatesOf (r.finish elapsed).journal =
      (endingsOf (r.finish elapsed).journal).filterMap Ending.fate :=
    (nodes_endingsFrom none _).2.symm
  have htree := h.tree
  rw [hpending, List.append_nil] at htree
  refine ⟨?_, hnodes, hfates, ?_, ?_, ?_, ?_, ?_, ?_, ?_⟩
  · rw [hfates, hendings]
    have hceiling : r.state.budget.iterations ≤ search.settings.iterationCeiling ↔
        endings.any (·.fate.isNone) = false := by
      have hexhausted := h.exhausted
      rw [hlimited] at hexhausted
      rw [← hexhausted]
      show _ ↔ decide (search.settings.iterationCeiling < r.state.budget.iterations) = false
      rw [decide_eq_false_iff_not, not_lt]
    show _ ↔ _ ∧ _ ∧ r.state.budget.iterations ≤ _
    rw [hceiling, ← all_isExhaustive_iff, ← h.complete]
    constructor
    · exact Run.complete_of_status
    · intro hcomplete
      rw [Run.status_finish, hcomplete]
      cases r.state.board.best <;> simp [Status.ofOutcome]
  · rw [hcalls, hendings, h.calls]
  · rw [hendings]
    exact h.fits
  · rw [hnodes, hendings]
    exact htree
  · rw [hnodes, hfates, hendings, htree.length_eq, List.length_cons, length_children h.fits]
  · rw [hcalls, h.calls, List.length_filterMap_eq_countP]
    exact h.solved
  · rw [hcalls, h.calls, List.countP_filterMap]
    refine h.iterations.trans (List.countP_congr fun e _ => ?_)
    unfold Ending.hasPoint
    cases e.call <;> simp
  · rw [hfates, hendings, List.count_eq_countP, List.countP_filterMap]
    refine h.offers.trans (congrArg (· + _) (List.countP_congr fun e _ => ?_))
    cases e.fate <;> simp

/-! ## Searches that give a report -/

/-- A point with values for some variables is found to be whole there or not. -/
theorem Criteria.allWhole_ok {c : Criteria α} {x : Array α} {vars : List Nat}
    (h : ∀ var ∈ vars, var < x.size) : ∃ whole, c.allWhole x vars = .ok whole := by
  induction vars with
  | nil => exact ⟨true, rfl⟩
  | cons var rest ih =>
    have hvalue : entry (α := α) x var = .ok _ :=
      entry_eq_ok_iff.mpr (Array.getElem?_eq_getElem (h var List.mem_cons_self))
    simp only [allWhole, hvalue, bind, Except.bind, pure, Except.pure]
    split
    · exact ih fun w hw => h w (List.mem_cons_of_mem var hw)
    · exact ⟨false, rfl⟩

namespace Search

variable {search : Search α} (hknown : ∀ var ∈ search.problem.integers, var < search.problem.size)

include hknown

/-- A search takes up a warm start or passes it over. -/
theorem start_ok_of_known (warmStart : Option (Array α)) :
    ∃ r, search.start warmStart = .ok r := by
  cases warmStart with
  | none => exact start_ok search
  | some x =>
    have haccepts : ∃ accepted, search.acceptsStart x = .ok accepted := by
      unfold acceptsStart
      split
      · rename_i hchecked
        rw [Bool.and_eq_true, beq_iff_eq] at hchecked
        refine Criteria.allWhole_ok fun var hvar => ?_
        rw [hchecked.1]
        exact hknown var (Array.mem_toList_iff.mp hvar)
      · exact ⟨false, rfl⟩
    obtain ⟨accepted, haccepts⟩ := haccepts
    cases accepted with
    | false => exact ⟨_, start_eq_ok_iff.mpr ⟨_, _, .ignored haccepts, rfl⟩⟩
    | true => exact ⟨_, start_eq_ok_iff.mpr ⟨_, _, .accepted haccepts, rfl⟩⟩

/-- A search with checked settings gives a report if its relaxation always answers. -/
theorem solve_ok (hcheck : search.settings.check = .ok ())
    (hanswers : ∀ (call : Nat) (node : Node α) (cutoff : Option (Cutoff α)),
      node.IsOver search.problem → ∃ answer, search.relaxation call node cutoff = .ok answer)
    (warmStart : Option (Array α)) (clock : Nat → Nat) :
    ∃ report, search.solve warmStart clock = .ok report := by
  obtain ⟨-, -, -, -, hlog⟩ := Settings.check_eq_ok_iff.mp hcheck
  obtain ⟨r, hstart⟩ := start_ok_of_known hknown warmStart
  obtain ⟨s, hrun, -⟩ := run_ok (P := Run.Coherent search) (fun elapsed hr hpending => by
    have hover := hr.isOver_head hpending
    obtain ⟨v, hv⟩ := visit_ok hlog hover hknown fun cutoff => hanswers _ _ cutoff hover
    exact ⟨v, hv, hr.of_advances (Run.advances_of_visit hpending hv)⟩)
    clock (Run.coherent_start hstart)
  exact ⟨_, solve_of_run hcheck hstart hrun⟩

end Search

/-- The verdict and the counters of a search account for its whole tree, whatever the relaxation
answers. There is a report if the settings pass their check, the relaxation always answers, and the
problem has the variables that are to be whole. -/
theorem solve_accounts (search : Search α) (warmStart : Option (Array α)) (clock : Nat → Nat) :
    (search.settings.check = .ok () →
      (∀ var ∈ search.problem.integers, var < search.problem.size) →
      (∀ (call : Nat) (node : Node α) (cutoff : Option (Cutoff α)), node.IsOver search.problem →
        ∃ answer, search.relaxation call node cutoff = .ok answer) →
      ∃ report, search.solve warmStart clock = .ok report) ∧
    ∀ report, search.solve warmStart clock = .ok report → report.Accounts search warmStart := by
  constructor
  · intro hcheck hknown hanswers
    exact Search.solve_ok hknown hcheck hanswers _ _
  · intro report h
    obtain ⟨-, r, s, hstart, hrun, rfl⟩ := Search.solve_eq_ok h
    obtain ⟨hreaches, hpending⟩ := reaches_of_run hrun
    obtain ⟨endings, hs⟩ := (Run.accounted_start hstart).of_reaches hreaches
    refine hs.accounts ?_ hpending _
    refine Run.invariant_of_reaches (P := fun s => s.state.budget.Limited search.settings)
      (fun hstep hr => ?_) hreaches ?_
    · obtain ⟨before, after, node, elapsed, v, -, hvisit, rfl⟩ := hstep.exists_visit
      rw [Run.state_absorb]
      exact limited_of_visit hvisit hr
    · rw [(Search.start_eq_ok hstart).2.1.budget]
      rfl

/-- The account of the sample program from the origin: the root branches, and each of the two
points that it counts is an offer. -/
theorem solve_accounts_sample : ∃ report, let search := OneRow.Sample.search .gapless
    let origin := some #[.ofRat 0, .ofRat 0]
    search.solve origin (fun _ => 0) = .ok report ∧ report.Accounts search origin ∧
      (nodesOf report.journal).length = 3 ∧ report.solution.offers = 2 := by
  let search := OneRow.Sample.search .gapless
  let origin : Option (Array Exact) := some #[.ofRat 0, .ofRat 0]
  have hrun : (search.solve origin (fun _ => 0)).toOption.map
      (fun report => ((nodesOf report.journal).length, report.solution.offers)) =
      some (3, 2) := by decide +kernel
  cases h : search.solve origin (fun _ => 0) with
  | error e =>
    rw [h] at hrun
    cases hrun
  | ok report =>
    rw [h] at hrun
    obtain ⟨hnodes, hoffers⟩ := Prod.mk.inj (Option.some.inj hrun)
    exact ⟨report, h, (solve_accounts search origin fun _ => 0).2 report h, hnodes, hoffers⟩

end BranchBound
