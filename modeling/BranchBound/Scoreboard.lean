import BranchBound.Problem

/-!
# The incumbent and the counters

The best whole point found so far, and what is counted on the way to it: points offered,
improvements, and nodes solved.

An offer takes three steps. It is counted; it is compared with the best value at that moment; and if
it beat that value it is committed, which compares once more and replaces the incumbent. An offer
with an invalid objective value is only counted.
-/

namespace BranchBound

/-- A whole point and its objective value. -/
structure Incumbent (α : Type) where
  point : Array α
  objective : α

structure Scoreboard (α : Type) where
  sense : Sense
  best : Option (Incumbent α) := none
  /-- Whole points offered. -/
  offers : Nat := 0
  /-- Times the incumbent was replaced. -/
  improvements : Nat := 0
  /-- Nodes whose relaxation was solved. -/
  solved : Nat := 0

namespace Scoreboard

variable {α : Type} [Scalar α]

/-- The objective value of the incumbent. -/
def bestValue (board : Scoreboard α) : Option α := board.best.map Incumbent.objective

/-- Whether a value is strictly better than the incumbent's, or there is none. -/
def improves (board : Scoreboard α) (objective : α) : Bool :=
  match board.bestValue with
  | none => true
  | some value => board.sense.better objective value

def countOffer (board : Scoreboard α) : Scoreboard α := { board with offers := board.offers + 1 }

/-- Replaces the incumbent if the point is strictly better. -/
def commit (board : Scoreboard α) (point : Array α) (objective : α) : Bool × Scoreboard α :=
  if board.improves objective then
    (true, { board with best := some ⟨point, objective⟩, improvements := board.improvements + 1 })
  else (false, board)

/-- Offers a point; the flag says whether it replaced the incumbent. -/
def offer (board : Scoreboard α) (point : Array α) (objective : α) : Bool × Scoreboard α :=
  let board := board.countOffer
  if Scalar.isNaN objective || !board.improves objective then (false, board)
  else board.commit point objective

def countSolved (board : Scoreboard α) : Scoreboard α := { board with solved := board.solved + 1 }

/-! ## What an offer changes -/

/-- An offer that replaced the incumbent made its point the incumbent; another one left it. -/
theorem best_offer (board : Scoreboard α) (point : Array α) (objective : α) :
    (board.offer point objective).2.best =
      if (board.offer point objective).1 then some ⟨point, objective⟩ else board.best := by
  unfold offer commit
  dsimp only
  split
  · rfl
  · split <;> rfl

theorem offers_offer (board : Scoreboard α) (point : Array α) (objective : α) :
    (board.offer point objective).2.offers = board.offers + 1 := by
  unfold offer commit
  dsimp only
  split
  · rfl
  · split <;> rfl

theorem improvements_offer (board : Scoreboard α) (point : Array α) (objective : α) :
    (board.offer point objective).2.improvements =
      board.improvements + if (board.offer point objective).1 then 1 else 0 := by
  unfold offer commit
  dsimp only
  split
  · rfl
  · split <;> rfl

/-- An offer replaces the incumbent exactly if its value is valid and strictly better. -/
theorem offer_fst_iff (board : Scoreboard α) (point : Array α) (objective : α) :
    (board.offer point objective).1 = true ↔
      Scalar.isNaN objective = false ∧ board.improves objective = true := by
  have hcount : board.countOffer.improves objective = board.improves objective := rfl
  unfold offer commit
  cases hn : Scalar.isNaN objective <;> cases hi : board.improves objective <;>
    simp [hcount, hi]

end Scoreboard

end BranchBound
