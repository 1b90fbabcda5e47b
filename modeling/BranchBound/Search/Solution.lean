import BranchBound.Search.Run

/-!
# Solving a problem

A search starts with a check of the settings, then takes up a warm start, then runs from the root,
and ends with a solution. A warm start is taken up as the first incumbent if it is whole and the
problem accepts it; otherwise it is passed over.
-/

namespace BranchBound

/-- What a search found, and its counters. -/
structure Solution (α : Type) where
  status : Status
  /-- The best whole point; empty if there is none. -/
  point : Array α
  /-- Its objective value; invalid if there is none. -/
  objective : α
  /-- Nodes whose relaxation was solved. -/
  solved : Nat
  /-- Whole points offered, an accepted warm start among them. -/
  offers : Nat
  /-- Times the incumbent was replaced. -/
  improvements : Nat
  iterations : Nat
  /-- Milliseconds. -/
  elapsed : Nat

/-- A solution with the journal of its search. -/
structure Report (α : Type) where
  solution : Solution α
  journal : Array (Event α)

section

variable {α : Type} [Scalar α]

/-- The solution before anything is done. -/
def Solution.empty : Solution α where
  status := .infeasible
  point := #[]
  objective := Scalar.nan
  solved := 0
  offers := 0
  improvements := 0
  iterations := 0
  elapsed := 0

namespace Run

/-- What a run found, after so many milliseconds. -/
def solution (r : Run α) (elapsed : Nat) : Solution α where
  status := .ofOutcome r.state.board.best.isSome r.complete
  point := (r.state.board.best.map Incumbent.point).getD #[]
  objective := r.state.board.bestValue.getD Scalar.nan
  solved := r.state.board.solved
  offers := r.state.board.offers
  improvements := r.state.board.improvements
  iterations := r.state.budget.iterations
  elapsed := elapsed

/-- Ends a run in which no node is left. -/
def finish (r : Run α) (elapsed : Nat) : Report α :=
  let s := r.solution elapsed
  let aborted := match r.aborted with
    | some (count, ceiling) => #[Event.aborted count ceiling]
    | none => #[]
  { solution := s
    journal := (r.journal ++ aborted).push
      (.finished s.status s.objective s.solved s.offers s.elapsed) }

end Run

namespace Search

/-- Whether a point can start a search. -/
def acceptsStart (search : Search α) (x : Array α) : Except (Error α) Bool :=
  if x.size == search.problem.size && search.problem.accepts x then
    search.criteria.allWhole x search.problem.integers.toList
  else .ok false

/-- Offers a warm start. -/
def seed (search : Search α) (σ : State α) (x : Array α) :
    Except (Error α) (State α × Event α) := do
  if ← search.acceptsStart x then
    let objective := search.problem.objective x
    return ({ σ with board := (σ.board.offer x objective).2 }, .warmStartAccepted objective)
  else return (σ, .warmStartIgnored)

/-- The node at which a search starts. It promises more than any incumbent has. -/
def root (search : Search α) : Node α := .root search.problem.integers search.problem.sense.best

/-- The run before its first visit. One worker is at work if the settings leave the number open. -/
def start (search : Search α) (warmStart : Option (Array α)) : Except (Error α) (Run α) := do
  let σ := State.initial search
  let (state, seeded) ← match warmStart with
    | some x => do
      let (σ, event) ← search.seed σ x
      pure (σ, #[event])
    | none => pure (σ, #[])
  let threads := max 1 search.settings.threads
  let started := .started search.problem.size search.problem.integers.size threads
  return { pending := [search.root], state, journal := seeded.push started }

/-- Solves a problem, from a warm start if there is one. `clock n` are the milliseconds passed
before visit `n`. The only errors are faults of the settings and broken contracts. -/
def solve (search : Search α) (warmStart : Option (Array α)) (clock : Nat → Nat) :
    Except (Error α) (Report α) := do
  search.settings.check
  let r ← search.start warmStart
  let r ← run search clock r
  return r.finish (clock r.visits)

end Search

end

end BranchBound
