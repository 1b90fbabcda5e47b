import BranchBound.Proofs.Accounting
import BranchBound.Proofs.Heeding

/-!
# Deduplication

A search whose relaxation answers within the bounds of the nodes comes to no box twice, so it finds
the same whether it looks out for that or not (`dedup_changes_nothing`).

Every node is split within its box, so the boxes that are pending are disjoint from each other, and
strictly inside those that were come to or disjoint from them (`Run.Spread`). This holds of the
nodes that the budget closes as well, which are not marked.

What is left is that the marks decide nothing else. The bare form of a run has neither marks nor
times; visits from the same bare state come to the same bare end (`visit_bare_congr`), and so do
runs (`run_bare_congr`), whether they end in a report or with an error.
-/

namespace BranchBound

open Lawful

variable {α : Type}

/-! ## Searches and journals -/

/-- The search with deduplication on or off. -/
def Search.withDedup (search : Search α) (dedup : Bool) : Search α :=
  { search with settings := { search.settings with dedup } }

/-- Whether no two nodes of a journal have the same box, and no node ended as if they had. -/
def Unrepeated (journal : Array (Event α)) : Prop :=
  (nodesOf journal).Pairwise (fun a b => a.sameBox b = false) ∧ .duplicate ∉ fatesOf journal

/-- The event without its time. -/
def Event.untimed : Event α → Event α
  | progress solved iterations incumbent offers _ =>
    progress solved iterations incumbent offers 0
  | finished status objective solved offers _ => finished status objective solved offers 0
  | event => event

/-- The report without its times. -/
def Report.untimed (report : Report α) : Report α where
  solution := { report.solution with elapsed := 0 }
  journal := report.journal.map Event.untimed

variable [Scalar α]

/-- Whether the usable points of the relaxation lie within the bounds of their nodes. -/
def Search.StaysInside (search : Search α) : Prop :=
  ∀ ⦃call : Nat⦄ ⦃node : Node α⦄ ⦃cutoff : Option (Cutoff α)⦄ ⦃answer : Answer α⦄,
    node.IsOver search.problem → search.relaxation call node cutoff = .ok answer →
    answer.verdict.isFeasible = true → Visit.isUsable search answer.point = true →
    node.Allows answer.point

/-! ## Boxes that do not come up twice -/

section

variable {search : Search α} {elapsed : Nat} {σ : State α} {node : Node α} {v : Visit α}

/-- A visit ends its node, and no other one. -/
theorem ended_of_visit (h : visit search elapsed σ node = .ok v) :
    v.events.filterMap Event.ended? = [node] ∧
      v.events.filterMap Event.fate? = v.outcome.fate?.toList := by
  obtain ⟨e, he⟩ := Visit.exists_records h
  have hreads := he.reads []
  rw [List.append_nil] at hreads
  obtain ⟨hnodes, hfates⟩ := nodes_endingsFrom none v.events
  rw [← hnodes, ← hfates, hreads, he.fate, ← he.node]
  refine ⟨rfl, ?_⟩
  show (e :: endingsFrom none []).filterMap Ending.fate = _
  rw [List.filterMap_cons]
  cases e.fate <;> rfl

/-- A node whose box is new is no duplicate. -/
theorem ne_duplicate_of_visit (hnew : (σ.visited.mark node).1 = true)
    (h : visit search elapsed σ node = .ok v) : v.outcome.fate? ≠ some .duplicate := by
  cases Visit.course_of_visit h with
  | seenBefore _ hseen =>
    rw [hnew] at hseen
    cases hseen
  | outOfBudget | unpromising | noPoint | overCeiling | unusable | whole | dominated | split =>
    exact fun hfate => nomatch hfate

end

namespace Run

/-- The boxes that a run came to so far. -/
def cutsIn (r : Run α) : List (Array Cut) := (nodesOf r.journal).map Node.cuts

/-- The boxes that a run came to are different, the pending ones are apart from them and from each
other, and no other box is marked. -/
structure Spread (n : Nat) (r : Run α) : Prop where
  nodup : r.cutsIn.Nodup
  unseen : .duplicate ∉ fatesOf r.journal
  apart : Apart n {cuts | cuts ∈ r.cutsIn} r.pending
  marked : ∀ cuts ∈ r.state.visited.boxes, cuts ∈ r.cutsIn

variable {search : Search α} {r s : Run α}

omit [Scalar α] in
theorem Spread.journal {n : Nat} (h : r.Spread n) : Unrepeated r.journal :=
  ⟨(List.pairwise_map.mp h.nodup).imp fun hne => beq_false_of_ne hne, h.unseen⟩

omit [Scalar α] in
theorem Spread.isNew {n : Nat} (h : r.Spread n) {node : Node α} (hnode : node ∈ r.pending) :
    (r.state.visited.mark node).1 = true :=
  (Separated.of_apart (h.apart.anti h.marked)).isNew hnode

theorem Spread.of_advances [Lawful α]
    (ht : Exact.ofRat 0 ≤ value search.settings.integrality) (hinside : search.StaysInside)
    (hcoherent : r.Coherent search) (hr : r.Spread search.problem.integers.size)
    (h : Advances search r s) : s.Spread search.problem.integers.size := by
  obtain ⟨before, after, node, elapsed, v, hperm, hvisit, rfl⟩ := h.exists_visit
  have hnode : node ∈ r.pending := hperm.mem_iff.mpr List.mem_cons_self
  have hover := hcoherent.isOver node hnode
  obtain ⟨hended, hfate⟩ := ended_of_visit hvisit
  -- the journal grows by this node, whether the visit marks it or not
  have hcuts : (r.absorb (before ++ after) v).cutsIn = r.cutsIn ++ [node.cuts] := by
    unfold cutsIn nodesOf
    rw [journal_absorb, Array.toList_appendList, List.filterMap_append, hended,
      List.map_append]
    rfl
  refine ⟨?_, ?_, ?_, ?_⟩
  · rw [hcuts, ← List.concat_eq_append]
    exact hr.nodup.concat (hr.apart.cuts_notMem hnode)
  · unfold fatesOf
    rw [journal_absorb, Array.toList_appendList, List.filterMap_append, hfate,
      List.mem_append, Option.mem_toList]
    exact not_or.mpr ⟨hr.unseen, ne_duplicate_of_visit (hr.isNew hnode) hvisit⟩
  · rw [pending_absorb]
    refine (hr.apart.of_perm hperm.symm).of_outcome (parts_of_visit ht
      (fun takes => hinside hover takes.answered takes.feasible takes.usable) hover
      (hr.apart.nonempty node hnode) hvisit) fun cuts hmem => ?_
    have hmem : cuts ∈ (r.absorb (before ++ after) v).cutsIn := hmem
    rw [hcuts, List.mem_append, List.mem_singleton] at hmem
    exact hmem.symm
  · intro cuts hmem
    rw [state_absorb] at hmem
    rw [hcuts, List.mem_append, List.mem_singleton]
    rcases visited_of_visit hvisit with hmark | hsame
    · rw [hmark] at hmem
      exact (mem_boxes_of_mark hmem).symm.imp_left (hr.marked cuts)
    · rw [hsame] at hmem
      exact Or.inl (hr.marked cuts hmem)

theorem spread_start {warmStart : Option (Array α)} (h : search.start warmStart = .ok r) :
    r.Spread search.problem.integers.size := by
  obtain ⟨hpending, hopens, -⟩ := Search.start_eq_ok h
  obtain ⟨hended, hfates⟩ := ended_quiet (Search.quiet_start h).1
  have hcuts : r.cutsIn = [] := congrArg (List.map Node.cuts) hended
  refine ⟨?_, ?_, ⟨?_, ?_, ?_⟩, ?_⟩
  · rw [hcuts]
    exact List.nodup_nil
  · unfold fatesOf
    rw [hfates]
    exact List.not_mem_nil
  · intro node hnode
    rw [hpending, List.mem_singleton] at hnode
    rw [hnode]
    exact ⟨fun _ => 0, mem_box_root _⟩
  · rw [hpending]
    exact List.pairwise_singleton _ _
  · intro cuts hmem
    have hmem : cuts ∈ r.cutsIn := hmem
    rw [hcuts] at hmem
    cases hmem
  · intro cuts hmem
    rw [hopens.visited] at hmem
    exact absurd hmem Std.HashSet.not_mem_empty

/-- What a run keeps up from its start, as long as its nodes are split within their boxes. -/
structure Tidy (search : Search α) (r : Run α) : Prop where
  coherent : r.Coherent search
  spread : r.Spread search.problem.integers.size
  limited : r.state.budget.Limited search.settings

theorem Tidy.of_advances [Lawful α] (ht : Exact.ofRat 0 ≤ value search.settings.integrality)
    (hinside : search.StaysInside) (hr : r.Tidy search) (h : Advances search r s) :
    s.Tidy search := by
  refine ⟨hr.coherent.of_advances h, hr.spread.of_advances ht hinside hr.coherent h, ?_⟩
  obtain ⟨before, after, node, elapsed, v, -, hvisit, rfl⟩ := h.exists_visit
  rw [state_absorb]
  exact limited_of_visit hvisit hr.limited

theorem tidy_start {warmStart : Option (Array α)} (h : search.start warmStart = .ok r) :
    r.Tidy search := by
  refine ⟨coherent_start h, spread_start h, ?_⟩
  rw [(Search.start_eq_ok h).2.1.budget]
  rfl

/-- Along every schedule no box comes up twice. -/
theorem unrepeated_of_reaches [Lawful α] (hcheck : search.settings.check = .ok ())
    (hinside : search.StaysInside) {warmStart : Option (Array α)}
    (hstart : search.start warmStart = .ok r) (h : Reaches search r s) : Unrepeated s.journal :=
  (invariant_of_reaches
    (fun hstep hr => hr.of_advances (Settings.integrality_nonneg hcheck) hinside hstep) h
    (tidy_start hstart)).spread.journal

theorem unrepeated_finish (h : Unrepeated r.journal) (elapsed : Nat) :
    Unrepeated (r.finish elapsed).journal := by
  obtain ⟨last, hquiet, hjournal⟩ := journal_finish r elapsed
  obtain ⟨hended, hfates⟩ := ended_quiet hquiet
  unfold Unrepeated nodesOf fatesOf at h ⊢
  rw [hjournal, List.filterMap_append, List.filterMap_append, hended, hfates, List.append_nil,
    List.append_nil]
  exact h

end Run

/-! ## Bare forms -/

/-- The state without marks. -/
def State.bare (σ : State α) : State α := { σ with visited := { enabled := false } }

omit [Scalar α] in
theorem State.bare_eq_iff {σ σ' : State α} :
    σ.bare = σ'.bare ↔ σ.board = σ'.board ∧ σ.budget = σ'.budget := by
  unfold bare
  rw [State.mk.injEq]
  simp

namespace Visit

/-- The visit without marks and times. -/
def bare (v : Visit α) : Visit α where
  outcome := v.outcome
  state := v.state.bare
  events := v.events.map Event.untimed

variable (search : Search α) (σ : State α) (events : List (Event α)) (node : Node α)

omit [Scalar α] in
theorem bare_close (fate : Fate) :
    (close σ events node fate).bare = close σ.bare (events.map Event.untimed) node fate := by
  unfold close bare
  rw [List.map_append]
  rfl

omit [Scalar α] in
/-- Only the time of a report on progress depends on the clock. -/
theorem progress_bare (elapsed : Nat) : (progress search elapsed σ).map (List.map Event.untimed) =
    progress search 0 σ.bare := by
  unfold progress State.bare
  split
  · rfl
  · split
    · rfl
    · dsimp only
      split
      · rfl
      · rfl

theorem ofPoint_bare (x : Array α) : (ofPoint search σ node x events).map bare =
    ofPoint search σ.bare node x (events.map Event.untimed) := by
  unfold ofPoint
  simp only [bind, Except.bind, pure, Except.pure]
  cases search.criteria.branching? x node with
  | error e => rfl
  | ok found =>
    cases found with
    | none =>
      refine congrArg Except.ok ((bare_close _ _ node .integerFound).trans ?_)
      rw [List.map_append]
      cases himproved : (σ.board.offer x (search.problem.objective x)).1 <;>
        simp [State.bare, himproved, Event.untimed]
    | some branching =>
      cases himproves : search.criteria.mayImprove (search.problem.objective x)
        σ.board.bestValue with
      | false => simp [State.bare, himproves, Except.map, bare_close]
      | true =>
        cases hsplit : node.split branching (search.problem.objective x) with
        | error e => simp [State.bare, himproves, hsplit, Except.map]
        | ok s => simp [State.bare, himproves, hsplit, Except.map, bare, Event.untimed]

theorem ofAnswer_bare (answer : Answer α) : (ofAnswer search σ node answer events).map bare =
    ofAnswer search σ.bare node answer (events.map Event.untimed) := by
  have hbudget : σ.bare.budget = σ.budget := rfl
  cases hspend : σ.budget.spend.isExhausted with
  | true =>
    rw [ofAnswer_of_exhausted hspend, ofAnswer_of_exhausted (by rw [hbudget, hspend])]
    simp [Except.map, bare, State.bare, Event.untimed]
  | false =>
    rw [ofAnswer_of_not_exhausted hspend, ofAnswer_of_not_exhausted (by rw [hbudget, hspend])]
    split
    · simp [Except.map, bare_close, State.bare, Event.untimed]
    · exact ofPoint_bare search _ events node answer.point

/-- The bare form of a visit that asks. -/
theorem solve_bare (elapsed : Nat) : (Visit.solve search elapsed σ node).map bare =
    Visit.solve search 0 σ.bare node := by
  unfold Visit.solve
  simp only [bind, Except.bind, pure, Except.pure]
  cases hanswer : search.relaxation σ.board.solved node
    (search.criteria.cutoff? σ.board.bestValue) with
  | error e => simp [State.bare, hanswer, Except.map]
  | ok answer =>
    have hprogress := progress_bare search { σ with board := σ.board.countSolved } elapsed
    dsimp only [State.bare] at hprogress ⊢
    rw [hanswer]
    dsimp only
    rw [← hprogress]
    cases progress search elapsed { σ with board := σ.board.countSolved } with
    | error e => rfl
    | ok report =>
      cases answer.verdict.isFeasible with
      | true => exact ofAnswer_bare search _ _ node answer
      | false => simp [Except.map, bare_close, State.bare, Event.untimed]

end Visit

/-- Visits from the same bare state have the same bare form, if the box is new in both and the
budget has time for both or for neither. -/
theorem visit_bare_congr {search : Search α} {elapsed elapsed' : Nat} {σ σ' : State α}
    {node : Node α} (h : σ.bare = σ'.bare) (hnew : (σ.visited.mark node).1 = true)
    (hnew' : (σ'.visited.mark node).1 = true)
    (hallows : σ.budget.allows elapsed = σ'.budget.allows elapsed') :
    (visit search elapsed σ node).map Visit.bare =
      (visit search elapsed' σ' node).map Visit.bare := by
  -- a mark is not part of the bare form
  have hmarked : (σ.marked node).bare = (σ'.marked node).bare := h
  obtain ⟨hboard, -⟩ := State.bare_eq_iff.mp h
  cases ha : σ'.budget.allows elapsed' with
  | false =>
    rw [ha] at hallows
    rw [Visit.visit_eq_ok_iff.mpr (.outOfBudget hallows),
      Visit.visit_eq_ok_iff.mpr (.outOfBudget ha)]
    simp only [Except.map, Visit.bare_close, h]
  | true =>
    rw [ha] at hallows
    cases hp : search.criteria.mayImprove node.estimate σ'.board.bestValue with
    | false =>
      have hp' : search.criteria.mayImprove node.estimate σ.board.bestValue = false := by
        rw [hboard]
        exact hp
      rw [Visit.visit_eq_ok_iff.mpr (.unpromising hallows hnew hp'),
        Visit.visit_eq_ok_iff.mpr (.unpromising ha hnew' hp)]
      simp only [Except.map, Visit.bare_close, hmarked]
    | true =>
      have hp' : search.criteria.mayImprove node.estimate σ.board.bestValue = true := by
        rw [hboard]
        exact hp
      rw [Visit.visit_eq_solve hallows hnew hp', Visit.visit_eq_solve ha hnew' hp,
        Visit.solve_bare, Visit.solve_bare, hmarked]

/-! ## Runs in step -/

omit [Scalar α] in
/-- Results that are equal once they are mapped are the same error, or two values that are. -/
theorem map_eq_map_cases {β γ : Type} {e e' : Except (Error α) β} {f : β → γ}
    (h : e.map f = e'.map f) : (∃ error, e = .error error ∧ e' = .error error) ∨
      ∃ b b', e = .ok b ∧ e' = .ok b' ∧ f b = f b' := by
  cases e with
  | error error =>
    cases e' with
    | error error' => exact Or.inl ⟨error, rfl, by rw [Except.error.inj h]⟩
    | ok b' => cases h
  | ok b =>
    cases e' with
    | error error' => cases h
    | ok b' => exact Or.inr ⟨b, b', rfl, rfl, Except.ok.inj h⟩

namespace Run

/-- The run without marks and times. -/
def bare (r : Run α) : Run α :=
  { r with state := r.state.bare, journal := r.journal.map Event.untimed }

omit [Scalar α] in
theorem bare_absorb (r : Run α) (rest : List (Node α)) (v : Visit α) :
    (r.absorb rest v).bare = r.bare.absorb rest v.bare := by
  have hjournal : (r.journal ++ v.events).map Event.untimed =
      r.journal.map Event.untimed ++ v.events.map Event.untimed := by
    simp [← Array.toList_inj]
  unfold absorb bare Visit.bare
  cases v.outcome <;> simp [hjournal]

theorem untimed_finish (r : Run α) (elapsed : Nat) :
    (r.finish elapsed).untimed = r.bare.finish 0 := by
  unfold finish Report.untimed solution bare
  cases haborted : r.aborted <;> simp [Event.untimed, State.bare]

variable {search : Search α} {r r' : Run α}

/-- Tidy runs with the same bare form take the same step. -/
theorem step_bare_congr {elapsed elapsed' : Nat} (h : r.bare = r'.bare) (hr : r.Tidy search)
    (hr' : r'.Tidy search) (htime : search.settings.timeLimit = none ∨ elapsed = elapsed') :
    (r.step search elapsed).map (Option.map bare) =
      (r'.step search elapsed').map (Option.map bare) := by
  have hpending : r.bare.pending = r'.bare.pending := congrArg pending h
  have hstate : r.bare.state = r'.bare.state := congrArg state h
  have hcomm : ∀ (r : Run α) (rest : List (Node α)) (e : Except (Error α) (Visit α)),
      (e.map fun v => some (r.absorb rest v)).map (Option.map bare) =
        (e.map Visit.bare).map fun w => some (r.bare.absorb rest w) := by
    intro r rest e
    cases e with
    | error e => rfl
    | ok v => exact congrArg (fun r => Except.ok (some r)) (bare_absorb r rest v)
  unfold step
  cases hnodes : r'.pending with
  | nil =>
    have hnone : r.pending = [] := hpending.trans hnodes
    rw [hnone]
  | cons node rest =>
    have hsame : r.pending = node :: rest := hpending.trans hnodes
    have hmem : node ∈ node :: rest := List.mem_cons_self
    have hiterations : r.state.budget.iterations = r'.state.budget.iterations :=
      congrArg Budget.iterations (State.bare_eq_iff.mp hstate).2
    have hallows : r.state.budget.allows elapsed = r'.state.budget.allows elapsed' :=
      Bool.eq_iff_iff.mpr
        ⟨hr.limited.allows hr'.limited hiterations.ge (htime.imp_right Eq.ge),
          hr'.limited.allows hr.limited hiterations.le (htime.imp_right Eq.le)⟩
    rw [hsame]
    dsimp only
    rw [hcomm, hcomm, visit_bare_congr hstate (hr.spread.isNew (hsame ▸ hmem))
      (hr'.spread.isNew (hnodes ▸ hmem)) hallows, h]

/-- Tidy runs with the same bare form come to ends with the same bare form, or to the same error. -/
theorem run_bare_congr [Lawful α] (ht : Exact.ofRat 0 ≤ value search.settings.integrality)
    (hinside : search.StaysInside) {clock clock' : Nat → Nat}
    (htime : search.settings.timeLimit = none ∨ clock = clock') (h : r.bare = r'.bare)
    (hr : r.Tidy search) (hr' : r'.Tidy search) :
    (run search clock r).map Run.bare = (run search clock' r').map Run.bare := by
  have hstep : ∀ {r r' : Run α}, r.bare = r'.bare → r.Tidy search → r'.Tidy search →
      (r.step search (clock r.visits)).map (Option.map bare) =
        (r'.step search (clock' r'.visits)).map (Option.map bare) := by
    intro r r' h hr hr'
    have hvisits : r.bare.visits = r'.bare.visits := congrArg visits h
    exact step_bare_congr h hr hr'
      (htime.imp_right fun hclock => congr hclock hvisits)
  fun_induction run search clock r generalizing r' with
  | case1 r e hfail =>
    rw [run_eq]
    rcases map_eq_map_cases (hstep h hr hr') with ⟨e', he, he'⟩ | ⟨next, next', hok, -⟩
    · rw [hfail] at he
      rw [he', Except.error.inj he]
    · rw [hfail] at hok
      cases hok
  | case2 r hdone =>
    rw [run_eq]
    rcases map_eq_map_cases (hstep h hr hr') with ⟨e', he, -⟩ | ⟨next, next', hok, hok', hsame⟩
    · rw [hdone] at he
      cases he
    · rw [hdone] at hok
      obtain rfl := Except.ok.inj hok
      cases next' with
      | none =>
        rw [hok']
        exact congrArg Except.ok h
      | some after' => cases hsame
  | case3 r after hnext _ ih =>
    rw [run_eq search clock' r']
    rcases map_eq_map_cases (hstep h hr hr') with ⟨e', he, -⟩ | ⟨next, next', hok, hok', hsame⟩
    · rw [hnext] at he
      cases he
    · rw [hnext] at hok
      obtain rfl := Except.ok.inj hok
      cases next' with
      | none => cases hsame
      | some after' =>
        rw [hok']
        exact ih (Option.some.inj hsame) (hr.of_advances ht hinside (advances_of_step hnext))
          (hr'.of_advances ht hinside (advances_of_step hok'))

end Run

/-! ## Deduplication -/

namespace Search

variable {search : Search α} {warmStart : Option (Array α)}

/-- A run does not look at whether deduplication is on. -/
theorem run_withDedup (dedup : Bool) (clock : Nat → Nat) (r : Run α) :
    run (search.withDedup dedup) clock r = run search clock r := by
  have hstep : ∀ (elapsed : Nat) (r : Run α),
      r.step (search.withDedup dedup) elapsed = r.step search elapsed := fun _ _ => rfl
  exact run_congr hstep clock r

theorem start_withDedup (search : Search α) (warmStart : Option (Array α)) (dedup : Bool) :
    ((search.withDedup dedup).start warmStart).map Run.bare =
      (search.start warmStart).map Run.bare := by
  unfold start
  cases warmStart with
  | none => rfl
  | some x =>
    simp only [seed, bind, Except.bind, pure, Except.pure]
    cases haccepts : search.acceptsStart x with
    | error e =>
      have haccepts' : (search.withDedup dedup).acceptsStart x = .error e := haccepts
      rw [haccepts']
    | ok accepted =>
      have haccepts' : (search.withDedup dedup).acceptsStart x = .ok accepted := haccepts
      rw [haccepts']
      cases accepted <;> rfl

/-- A run that starts with other marks is as tidy. -/
theorem tidy_start_withDedup {dedup : Bool} {r : Run α}
    (h : (search.withDedup dedup).start warmStart = .ok r) : r.Tidy search := by
  obtain ⟨hcoherent, hspread, hlimited⟩ := Run.tidy_start h
  exact ⟨⟨hcoherent.isOver, hcoherent.sense, hcoherent.best⟩, hspread, hlimited⟩

/-- A search gives the same report with and without deduplication, or fails in the same way. -/
theorem solve_withDedup [Lawful α] (hinside : search.StaysInside) {clock clock' : Nat → Nat}
    (htime : search.settings.timeLimit = none ∨ clock = clock') (dedup : Bool) :
    (search.solve warmStart clock).map Report.untimed =
      ((search.withDedup dedup).solve warmStart clock').map Report.untimed := by
  have hsame : (search.withDedup dedup).settings.check = search.settings.check := rfl
  unfold solve
  simp only [bind, Except.bind, pure, Except.pure, run_withDedup, hsame]
  cases hcheck : search.settings.check with
  | error e => rfl
  | ok _ =>
    have ht := Settings.integrality_nonneg hcheck
    rcases map_eq_map_cases (start_withDedup search warmStart dedup).symm with
      ⟨e, hstart, hstart'⟩ | ⟨r, r', hstart, hstart', hbare⟩
    · rw [hstart, hstart']
    · rw [hstart, hstart']
      dsimp only
      rcases map_eq_map_cases (Run.run_bare_congr ht hinside htime hbare (Run.tidy_start hstart)
        (tidy_start_withDedup hstart')) with ⟨e, hrun, hrun'⟩ | ⟨s, s', hrun, hrun', hends⟩
      · rw [hrun, hrun']
      · rw [hrun, hrun']
        refine congrArg Except.ok ?_
        rw [Run.untimed_finish, Run.untimed_finish, hends]

end Search

/-- If the usable points of a relaxation lie within the bounds of their nodes, no box comes up
twice, along any schedule, with deduplication on or off. So a search reports the same with and
without it, times apart: the calls, the nodes with their ends, and the solution. If there is a time
limit, both have to see the same clock. -/
theorem dedup_changes_nothing [Lawful α] {search : Search α} (hinside : search.StaysInside)
    (warmStart : Option (Array α)) :
    (search.settings.check = .ok () → ∀ start r, search.start warmStart = .ok start →
      Run.Reaches search start r → Unrepeated r.journal) ∧
    (∀ clock report, search.solve warmStart clock = .ok report → Unrepeated report.journal) ∧
    ∀ clock clock', (search.settings.timeLimit = none ∨ clock = clock') → ∀ dedup,
      (search.solve warmStart clock).map Report.untimed =
        ((search.withDedup dedup).solve warmStart clock').map Report.untimed := by
  refine ⟨fun hcheck start r => Run.unrepeated_of_reaches hcheck hinside, fun clock report h => ?_,
    fun clock clock' htime dedup => Search.solve_withDedup hinside htime dedup⟩
  obtain ⟨hcheck, r, s, hstart, hrun, rfl⟩ := Search.solve_eq_ok h
  exact Run.unrepeated_finish
    (Run.unrepeated_of_reaches hcheck hinside hstart (reaches_of_run hrun).1) _

/-- The points of the parabola lie within the bounds that they were found for. -/
theorem Parabola.staysInside : (search (.plain answers)).StaysInside := by
  intro call node cutoff answer hover hanswer hfeasible _ i var c v hvar hc hv
  obtain rfl := Except.ok.inj hanswer
  obtain ⟨entry, hentry, hcut, hpoint⟩ := of_feasible hfeasible
  -- there is one whole variable, which is the first one
  rw [hover.1] at hvar
  obtain ⟨hi, rfl⟩ := Array.getElem?_eq_some_iff.mp hvar
  obtain rfl : i = 0 := Nat.lt_one_iff.mp hi
  obtain rfl := Option.some.inj (hcut.symm.trans hc)
  have hv : v = entry.2 := by
    rw [hpoint] at hv
    exact (Option.some.inj hv).symm
  rw [hv]
  unfold points at hentry
  simp only [List.mem_cons, List.not_mem_nil, or_false] at hentry
  rcases hentry with rfl | rfl | rfl
  · exact ⟨fun b hb => (nomatch hb), fun b hb => (nomatch hb)⟩
  · refine ⟨fun b hb => (nomatch hb), fun b hb => ?_⟩
    rw [← Option.some.inj hb]
    decide +kernel
  · refine ⟨fun b hb => ?_, fun b hb => (nomatch hb)⟩
    rw [← Option.some.inj hb]
    decide +kernel

/-- The parabola, with the boxes of its three nodes marked and without. -/
theorem dedup_changes_nothing_parabola : ∃ marked unmarked,
    let search := Parabola.search (.plain Parabola.answers)
    (search.withDedup true).solve none (fun _ => 0) = .ok marked ∧
      search.solve none (fun _ => 0) = .ok unmarked ∧ unmarked.untimed = marked.untimed ∧
      Unrepeated unmarked.journal ∧ (nodesOf unmarked.journal).length = 3 := by
  let search := Parabola.search (.plain Parabola.answers)
  have hrun : (search.solve none (fun _ => 0)).toOption.map (fun report =>
      (nodesOf report.journal).length) = some 3 := by decide +kernel
  obtain ⟨unmarked, hunmarked, hlength⟩ := exists_of_toOption_map hrun
  obtain ⟨-, hunrepeated, hsame⟩ := dedup_changes_nothing Parabola.staysInside none
  have hsame := hsame (fun _ => 0) (fun _ => 0) (Or.inl rfl) true
  rw [hunmarked] at hsame
  cases hmarked : (search.withDedup true).solve none fun _ => 0 with
  | error e =>
    rw [hmarked] at hsame
    cases hsame
  | ok marked =>
    rw [hmarked] at hsame
    exact ⟨marked, unmarked, hmarked, hunmarked, Except.ok.inj hsame, hunrepeated _ _ hunmarked,
      hlength⟩

end BranchBound
