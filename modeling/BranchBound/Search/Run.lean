import BranchBound.Search.Visit

/-!
# Running a search

A run keeps the nodes that are still to be visited, and visits the first of them. The children of a
node come before all others, so the tree is gone through depth first: all of the first child's
subtree, then all of the second's. When the ceiling is passed the nodes that are left are still
visited, and the budget closes every one of them.

This is the order of one worker that visits a node and then recurses into its children. With more
workers another one may take up the second child while the first is searched; what holds then is
said along every schedule, in `BranchBound.Proofs.Schedule`. A worker's recursion takes up some of
its stack for every level of the tree, and the stack, of 16 MiB, gives out in a tree that is deep
enough. That limit is not part of the description: here the nodes still to be visited are a list,
and no depth ends a run.

Each visit takes one node off, and adds two only if it spends an iteration that the budget allows.
So `measure`, twice the iterations that are left plus the number of nodes, falls with every visit
(`measure_lt_of_step`), and a run ends whatever the relaxation answers.
-/

namespace BranchBound

structure Run (α : Type) where
  /-- The nodes to visit, in order. -/
  pending : List (Node α)
  state : State α
  /-- Nothing was left out so far. -/
  complete : Bool := true
  /-- The count of iterations that passed the ceiling, and the ceiling. -/
  aborted : Option (Nat × Nat) := none
  /-- Number of visits so far. -/
  visits : Nat := 0
  journal : Array (Event α) := #[]

namespace Run

variable {α : Type} [Scalar α]

/-- Takes up what came of a visit; `rest` are the other nodes. -/
def absorb (r : Run α) (rest : List (Node α)) (v : Visit α) : Run α :=
  let r := { r with
    pending := rest
    state := v.state
    visits := r.visits + 1
    journal := r.journal ++ v.events }
  match v.outcome with
  | .closed fate => { r with complete := r.complete && fate.isExhaustive }
  | .branched continued forked => { r with pending := continued :: forked :: rest }
  | .ceilingPassed count ceiling => { r with complete := false, aborted := some (count, ceiling) }

/-- Visits the first node, after so many milliseconds; nothing if there is none. -/
def step (search : Search α) (elapsed : Nat) (r : Run α) : Except (Error α) (Option (Run α)) :=
  match r.pending with
  | [] => .ok none
  | node :: rest => (visit search elapsed r.state node).map fun v => some (r.absorb rest v)

/-- Twice the iterations that are left, plus the number of nodes. -/
def measure (r : Run α) : Nat :=
  2 * (r.state.budget.maxIterations - r.state.budget.iterations) + r.pending.length

theorem measure_lt_of_step {search : Search α} {elapsed : Nat} {r s : Run α}
    (h : r.step search elapsed = .ok (some s)) : s.measure < r.measure := by
  unfold step at h
  split at h
  · cases h
  · rename_i node rest hpending
    obtain ⟨v, hv, hs⟩ := map_eq_ok.mp h
    obtain rfl := Option.some.inj hs
    have hspends := spends_of_visit hv
    unfold measure absorb
    rw [hpending]
    cases ho : v.outcome with
    | closed fate =>
      rcases hspends with ⟨hb, _⟩ | hb
      · simp [hb]
      · simp [hb, Budget.spend]
        omega
    | branched a b =>
      have hlt := Budget.iterations_lt_of_allows (allows_of_branched hv ho)
      rcases hspends with ⟨_, hnone⟩ | hb
      · exact absurd ho (hnone a b)
      · simp [hb, Budget.spend]
        omega
    | ceilingPassed count ceiling =>
      rcases hspends with ⟨hb, _⟩ | hb
      · simp [hb]
      · simp [hb, Budget.spend]
        omega

end Run

/-- Visits nodes until none is left. `clock n` are the milliseconds passed before visit `n`. -/
def run {α : Type} [Scalar α] (search : Search α) (clock : Nat → Nat) (r : Run α) :
    Except (Error α) (Run α) :=
  match h : r.step search (clock r.visits) with
  | .error e => .error e
  | .ok none => .ok r
  | .ok (some s) =>
    have := Run.measure_lt_of_step h
    run search clock s
termination_by r.measure

end BranchBound
