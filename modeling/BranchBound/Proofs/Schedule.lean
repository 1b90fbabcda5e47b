import BranchBound.Proofs.Results
import BranchBound.Proofs.Visit
import BranchBound.Search.Solution
import Mathlib.Logic.Relation

/-!
# Schedules

A search whose next node is any of the pending ones: `Run.Advances` is one visit, `Run.Reaches` any
number of them. The depth-first run is one of the schedules (`reaches_of_run`), and so are the runs
that follow given positions (`Run.reaches_of_follow`), so what holds along every schedule holds of
them. The clock may show any time at each visit.

An invariant is proved for one visit and follows for a whole run by `Run.invariant_of_reaches`.
-/

namespace BranchBound

variable {α : Type}

/-! ## Offers -/

namespace Scoreboard

variable [Scalar α] (board : Scoreboard α) (x : Array α) (value : α)

@[simp] theorem sense_offer : (board.offer x value).2.sense = board.sense := by
  unfold offer commit
  dsimp only
  split
  · rfl
  · split <;> rfl

@[simp] theorem solved_offer : (board.offer x value).2.solved = board.solved := by
  unfold offer commit
  dsimp only
  split
  · rfl
  · split <;> rfl

/-- What an offer leaves as the incumbent: the old one, or the point if its value is valid. -/
theorem best_offer_cases : (board.offer x value).2.best = board.best ∨
    (board.offer x value).2.best = some ⟨x, value⟩ ∧ Scalar.isNaN value = false := by
  rw [best_offer]
  cases ho : (board.offer x value).1 with
  | false => exact Or.inl rfl
  | true => exact Or.inr ⟨rfl, ((offer_fst_iff board x value).mp ho).1⟩

end Scoreboard

/-! ## Outcomes -/

namespace Outcome

/-- The nodes that come of a visit. -/
def children : Outcome α → List (Node α)
  | branched continued forked => [continued, forked]
  | _ => []

/-- Whether nothing was left out at the node, its children apart. -/
def isExhaustive : Outcome α → Bool
  | closed fate => fate.isExhaustive
  | branched _ _ => true
  | ceilingPassed _ _ => false

end Outcome

/-! ## Taking up a visit -/

namespace Run

variable (r : Run α) (rest : List (Node α)) (v : Visit α)

@[simp] theorem pending_absorb : (r.absorb rest v).pending = v.outcome.children ++ rest := by
  unfold absorb
  cases v.outcome <;> rfl

@[simp] theorem state_absorb : (r.absorb rest v).state = v.state := by
  unfold absorb
  cases v.outcome <;> rfl

@[simp] theorem complete_absorb :
    (r.absorb rest v).complete = (r.complete && v.outcome.isExhaustive) := by
  unfold absorb
  cases v.outcome with
  | closed fate => rfl
  | branched a b => exact (Bool.and_true r.complete).symm
  | ceilingPassed count ceiling => exact (Bool.and_false r.complete).symm

@[simp] theorem visits_absorb : (r.absorb rest v).visits = r.visits + 1 := by
  unfold absorb
  cases v.outcome <;> rfl

@[simp] theorem journal_absorb : (r.absorb rest v).journal = r.journal ++ v.events := by
  unfold absorb
  cases v.outcome <;> rfl

end Run

variable [Scalar α]

/-! ## Visiting any node -/

namespace Run

/-- One of the pending nodes is visited. -/
inductive Advances (search : Search α) : Run α → Run α → Prop
  | visit {r : Run α} {before after : List (Node α)} {node : Node α} {elapsed : Nat} {v : Visit α}
      (hpending : r.pending = before ++ node :: after)
      (hvisit : BranchBound.visit search elapsed r.state node = .ok v) :
    Advances search r (r.absorb (before ++ after) v)

/-- A visit of the first pending node. -/
theorem advances_of_visit {search : Search α} {r : Run α} {node : Node α} {rest : List (Node α)}
    {elapsed : Nat} {v : Visit α} (hpending : r.pending = node :: rest)
    (hv : BranchBound.visit search elapsed r.state node = .ok v) :
    Advances search r (r.absorb rest v) := by
  have hsplit : r.pending = [] ++ node :: rest := hpending
  exact Advances.visit hsplit hv

theorem Advances.exists_visit {search : Search α} {r s : Run α} (h : Advances search r s) :
    ∃ before after node elapsed v, r.pending.Perm (node :: (before ++ after)) ∧
      BranchBound.visit search elapsed r.state node = .ok v ∧ s = r.absorb (before ++ after) v := by
  cases h with
  | visit hpending hvisit =>
    refine ⟨_, _, _, _, _, ?_, hvisit, rfl⟩
    rw [hpending]
    exact List.perm_middle

/-- Some pending nodes are visited, one after the other. -/
def Reaches (search : Search α) : Run α → Run α → Prop :=
  Relation.ReflTransGen (Advances search)

variable {search : Search α}

/-- What every visit keeps holds at the end of every schedule. -/
theorem invariant_of_reaches {P : Run α → Prop}
    (hstep : ∀ {r s : Run α}, Advances search r s → P r → P s) {r s : Run α}
    (h : Reaches search r s) (hr : P r) : P s := by
  induction h with
  | refl => exact hr
  | tail _ hlast ih => exact hstep hlast ih

theorem step_eq_ok_some {elapsed : Nat} {r s : Run α} (h : r.step search elapsed = .ok (some s)) :
    ∃ node rest v, r.pending = node :: rest ∧ visit search elapsed r.state node = .ok v ∧
      s = r.absorb rest v := by
  unfold step at h
  split at h
  · cases h
  · rename_i node rest hpending
    obtain ⟨v, hv, hs⟩ := map_eq_ok.mp h
    exact ⟨node, rest, v, hpending, hv, Option.some.inj hs⟩

theorem pending_of_step_eq_ok_none {elapsed : Nat} {r : Run α}
    (h : r.step search elapsed = .ok none) : r.pending = [] := by
  unfold step at h
  split at h
  · assumption
  · obtain ⟨v, -, hnone⟩ := map_eq_ok.mp h
    cases hnone

theorem advances_of_step {elapsed : Nat} {r s : Run α} (h : r.step search elapsed = .ok (some s)) :
    Advances search r s := by
  obtain ⟨node, rest, v, hpending, hv, rfl⟩ := step_eq_ok_some h
  exact advances_of_visit hpending hv

end Run

/-! ## Schedules by position -/

namespace Run

/-- Visits the pending node at a position; nothing if there is none. -/
def visitAt (search : Search α) (r : Run α) (i : Nat) : Except (Error α) (Run α) :=
  match r.pending[i]? with
  | none => .ok r
  | some node => (visit search 0 r.state node).map fun v => r.absorb (r.pending.eraseIdx i) v

/-- Visits the pending nodes at given positions, one after the other. -/
def follow (search : Search α) (r : Run α) (positions : List Nat) : Except (Error α) (Run α) :=
  positions.foldlM (visitAt search) r

theorem reaches_of_visitAt {search : Search α} {r s : Run α} {i : Nat}
    (h : r.visitAt search i = .ok s) : Reaches search r s := by
  unfold visitAt at h
  split at h
  · rw [← Except.ok.inj h]
    exact Relation.ReflTransGen.refl
  · rename_i node hnode
    obtain ⟨hlt, hget⟩ := List.getElem?_eq_some_iff.mp hnode
    obtain ⟨v, hv, rfl⟩ := map_eq_ok.mp h
    rw [List.eraseIdx_eq_take_drop_succ]
    refine Relation.ReflTransGen.single (Advances.visit ?_ hv)
    rw [← hget, List.getElem_cons_drop, List.take_append_drop]

theorem reaches_of_follow {search : Search α} {r s : Run α} {positions : List Nat}
    (h : r.follow search positions = .ok s) : Reaches search r s :=
  invariant_of_foldlM (P := Reaches search r) (fun hi hr => hr.trans (reaches_of_visitAt hi)) h
    .refl

end Run

/-- The depth-first run follows a schedule, to its end. -/
theorem reaches_of_run {search : Search α} {clock : Nat → Nat} {r s : Run α}
    (h : run search clock r = .ok s) : Run.Reaches search r s ∧ s.pending = [] := by
  fun_induction run search clock r with
  | case1 r e hstep => cases h
  | case2 r hstep =>
    cases h
    exact ⟨Relation.ReflTransGen.refl, Run.pending_of_step_eq_ok_none hstep⟩
  | case3 r next hstep _ ih =>
    obtain ⟨hreaches, hpending⟩ := ih h
    exact ⟨Relation.ReflTransGen.head (Run.advances_of_step hstep) hreaches, hpending⟩

/-- A run is its first step, and then the run from there. -/
theorem run_eq (search : Search α) (clock : Nat → Nat) (r : Run α) :
    run search clock r = match r.step search (clock r.visits) with
      | .error e => .error e
      | .ok none => .ok r
      | .ok (some s) => run search clock s := by
  rw [run]
  split
  · rename_i hstep
    rw [hstep]
  · rename_i hstep
    rw [hstep]
  · rename_i hstep
    dsimp only
    rw [hstep]

/-- Searches that take the same steps run in the same way. -/
theorem run_congr {search search' : Search α}
    (h : ∀ (elapsed : Nat) (r : Run α), r.step search' elapsed = r.step search elapsed)
    (clock : Nat → Nat) (r : Run α) : run search' clock r = run search clock r := by
  fun_induction run search clock r with
  | case1 r e hfail => rw [run_eq, h, hfail]
  | case2 r hdone => rw [run_eq, h, hdone]
  | case3 r next hnext _ ih =>
    rw [run_eq, h, hnext]
    exact ih

theorem run_of_visit {search : Search α} {clock : Nat → Nat} {r : Run α} {node : Node α}
    {rest : List (Node α)} {v : Visit α} (hpending : r.pending = node :: rest)
    (h : visit search (clock r.visits) r.state node = .ok v) :
    run search clock r = run search clock (r.absorb rest v) := by
  have hstep : r.step search (clock r.visits) = .ok (some (r.absorb rest v)) := by
    unfold Run.step
    rw [hpending]
    dsimp only
    rw [h]
    rfl
  rw [run_eq, hstep]

/-- A run without pending nodes is at its end. -/
theorem run_of_pending_eq_nil {search : Search α} {clock : Nat → Nat} {r : Run α}
    (h : r.pending = []) : run search clock r = .ok r := by
  have hdone : r.step search (clock r.visits) = .ok none := by
    unfold Run.step
    rw [h]
  rw [run_eq, hdone]

/-- What is left out stays left out. -/
theorem Run.complete_of_reaches {search : Search α} {r s : Run α} (h : Reaches search r s)
    (hs : s.complete = true) : r.complete = true := by
  induction h with
  | refl => exact hs
  | tail _ hlast ih =>
    obtain ⟨before, after, node, elapsed, v, -, -, rfl⟩ := hlast.exists_visit
    rw [complete_absorb, Bool.and_eq_true] at hs
    exact ih hs.1

/-! ## Starting and ending -/

namespace Search

variable {search : Search α}

/-- The state at the start: the initial one, or the one in which an accepted warm start was
offered. -/
inductive Opens (search : Search α) (warmStart : Option (Array α)) : State α → Prop
  | cold (h : ∀ x, warmStart = some x → search.acceptsStart x = .ok false) :
    Opens search warmStart (.initial search)
  | warm {x : Array α} (hx : warmStart = some x) (h : search.acceptsStart x = .ok true) :
    Opens search warmStart { State.initial search with
      board := ((State.initial search).board.offer x (search.problem.objective x)).2 }

namespace Opens

variable {warmStart : Option (Array α)} {σ : State α}

theorem sense (h : Opens search warmStart σ) : σ.board.sense = search.problem.sense := by
  cases h with
  | cold => rfl
  | warm => exact Scoreboard.sense_offer _ _ _

/-- The first incumbent, if there is one, is an accepted warm start. -/
theorem best_cases (h : Opens search warmStart σ) : σ.board.best = none ∨
    ∃ x, warmStart = some x ∧ search.acceptsStart x = .ok true ∧
      Scalar.isNaN (search.problem.objective x) = false ∧
      σ.board.best = some ⟨x, search.problem.objective x⟩ := by
  cases h with
  | cold => exact Or.inl rfl
  | warm hx haccepts =>
    rcases Scoreboard.best_offer_cases (State.initial search).board _ _ with hsame | ⟨hnew, hvalid⟩
    · exact Or.inl hsame
    · exact Or.inr ⟨_, hx, haccepts, hvalid, hnew⟩

theorem eq_initial (h : Opens search none σ) : σ = .initial search := by
  cases h with
  | cold => rfl
  | warm hx => cases hx

theorem budget (h : Opens search warmStart σ) : σ.budget = .ofSettings search.settings := by
  cases h <;> rfl

theorem visited (h : Opens search warmStart σ) :
    σ.visited = { enabled := search.settings.dedup } := by
  cases h <;> rfl

end Opens

/-- What a warm start makes of the first state, and what is told of it. -/
inductive Seeds (search : Search α) : Option (Array α) → State α → Array (Event α) → Prop
  | cold : Seeds search none (.initial search) #[]
  | ignored {x : Array α} (h : search.acceptsStart x = .ok false) :
    Seeds search (some x) (.initial search) #[.warmStartIgnored]
  | accepted {x : Array α} (h : search.acceptsStart x = .ok true) :
    Seeds search (some x) { State.initial search with
      board := ((State.initial search).board.offer x (search.problem.objective x)).2 }
      #[.warmStartAccepted (search.problem.objective x)]

theorem Seeds.opens {warmStart : Option (Array α)} {σ : State α} {events : Array (Event α)}
    (h : Seeds search warmStart σ events) : Opens search warmStart σ := by
  cases h with
  | cold => exact .cold fun x hx => absurd hx.symm (Option.some_ne_none x)
  | ignored h =>
    refine .cold fun y hy => ?_
    rw [← Option.some.inj hy]
    exact h
  | accepted h => exact .warm rfl h

/-- The run at the root, from a first state. -/
def opening (search : Search α) (σ : State α) (events : Array (Event α)) : Run α where
  pending := [search.root]
  state := σ
  journal := events.push (.started search.problem.size search.problem.integers.size
    (max 1 search.settings.threads))

theorem start_eq_ok_iff {warmStart : Option (Array α)} {r : Run α} :
    search.start warmStart = .ok r ↔
      ∃ σ events, Seeds search warmStart σ events ∧ r = search.opening σ events := by
  constructor
  · intro h
    cases warmStart with
    | none => exact ⟨_, _, .cold, (Except.ok.inj h).symm⟩
    | some x =>
      obtain ⟨seeded, hseeded, h⟩ := bind_eq_ok.mp h
      obtain ⟨accepted, haccepts, hseeded⟩ := bind_eq_ok.mp hseeded
      cases accepted with
      | false =>
        obtain rfl := Except.ok.inj hseeded
        exact ⟨_, _, .ignored haccepts, (Except.ok.inj h).symm⟩
      | true =>
        obtain rfl := Except.ok.inj hseeded
        exact ⟨_, _, .accepted haccepts, (Except.ok.inj h).symm⟩
  · rintro ⟨σ, events, hseeds, rfl⟩
    cases hseeds with
    | cold => rfl
    | ignored h => exact bind_eq_ok.mpr ⟨_, bind_eq_ok.mpr ⟨false, h, rfl⟩, rfl⟩
    | accepted h => exact bind_eq_ok.mpr ⟨_, bind_eq_ok.mpr ⟨true, h, rfl⟩, rfl⟩

/-- A run starts at the root, with nothing left out and no call made. -/
theorem start_eq_ok {warmStart : Option (Array α)} {r : Run α}
    (h : search.start warmStart = .ok r) :
    r.pending = [search.root] ∧ Opens search warmStart r.state ∧ r.complete = true ∧
      r.aborted = none ∧ r.visits = 0 ∧ callsOf r.journal = [] := by
  obtain ⟨σ, events, hseeds, rfl⟩ := start_eq_ok_iff.mp h
  refine ⟨rfl, hseeds.opens, rfl, rfl, rfl, ?_⟩
  cases hseeds <;> rfl

/-- A search without a warm start starts. -/
theorem start_ok (search : Search α) : ∃ r, search.start none = .ok r := ⟨_, rfl⟩

/-- A search starts from a point that it accepts, which was offered then. -/
theorem start_of_accepts {x : Array α} (h : search.acceptsStart x = .ok true) :
    ∃ r, search.start (some x) = .ok r ∧ r.state.board =
      ((State.initial search).board.offer x (search.problem.objective x)).2 :=
  ⟨_, start_eq_ok_iff.mpr ⟨_, _, .accepted h, rfl⟩, rfl⟩

/-- A search reports the end of its run. -/
theorem solve_of_run {warmStart : Option (Array α)} {clock : Nat → Nat} {r s : Run α}
    (hcheck : search.settings.check = .ok ()) (hstart : search.start warmStart = .ok r)
    (hrun : run search clock r = .ok s) :
    search.solve warmStart clock = .ok (s.finish (clock s.visits)) := by
  unfold solve
  simp only [hcheck, hstart, hrun, bind, Except.bind, pure, Except.pure]

/-- A search that gives a report passed the check of its settings and ran from a start to its
end. -/
theorem solve_eq_ok {warmStart : Option (Array α)} {clock : Nat → Nat} {report : Report α}
    (h : search.solve warmStart clock = .ok report) :
    search.settings.check = .ok () ∧ ∃ r s, search.start warmStart = .ok r ∧
      run search clock r = .ok s ∧ report = s.finish (clock s.visits) := by
  obtain ⟨_, hcheck, h⟩ := bind_eq_ok.mp h
  obtain ⟨r, hr, h⟩ := bind_eq_ok.mp h
  obtain ⟨s, hs, h⟩ := bind_eq_ok.mp h
  exact ⟨hcheck, r, s, hr, hs, (Except.ok.inj h).symm⟩

end Search

/-- What was computed of a result says that there is one. -/
theorem exists_of_toOption_map {ε α β : Type} {e : Except ε α} {f : α → β} {b : β}
    (h : e.toOption.map f = some b) : ∃ a, e = .ok a ∧ f a = b := by
  cases e with
  | error _ => cases h
  | ok a => exact ⟨a, rfl, Option.some.inj h⟩

namespace Run

variable {s : Run α} {elapsed : Nat}

theorem status_finish : (s.finish elapsed).solution.status =
    .ofOutcome s.state.board.best.isSome s.complete := rfl

/-- A search is optimal exactly if it left nothing out and has an incumbent. -/
theorem status_finish_eq_optimal_iff : (s.finish elapsed).solution.status = .optimal ↔
    s.complete = true ∧ ∃ best, s.state.board.best = some best := by
  rw [status_finish]
  cases s.state.board.best <;> cases s.complete <;> simp [Status.ofOutcome]

/-- A search that is optimal or infeasible left nothing out. -/
theorem complete_of_status (h : (s.finish elapsed).solution.status = .optimal ∨
    (s.finish elapsed).solution.status = .infeasible) : s.complete = true := by
  rw [status_finish] at h
  cases hc : s.complete with
  | true => rfl
  | false =>
    rw [hc] at h
    cases hb : s.state.board.best.isSome <;> simp [hb, Status.ofOutcome] at h

/-- A search reports the incumbent of its run. -/
theorem solution_finish (elapsed : Nat) {best : Incumbent α} (h : s.state.board.best = some best) :
    (s.finish elapsed).solution.point = best.point ∧
      (s.finish elapsed).solution.objective = best.objective := by
  unfold finish solution Scoreboard.bestValue
  rw [h]
  exact ⟨rfl, rfl⟩

/-- A search is infeasible exactly if it left nothing out and has no incumbent. -/
theorem status_finish_eq_infeasible_iff : (s.finish elapsed).solution.status = .infeasible ↔
    s.complete = true ∧ s.state.board.best = none := by
  rw [status_finish]
  cases s.state.board.best <;> cases s.complete <;> simp [Status.ofOutcome]

end Run

end BranchBound
