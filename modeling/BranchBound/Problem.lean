import BranchBound.Scalar

/-!
# Problems

What a search has to know about an optimisation problem: the sense of the objective, which variables
are to be whole, and the objective and the feasibility of a point.
-/

namespace BranchBound

/-- Which objective values are good. -/
inductive Sense where
  | minimise
  | maximise
  deriving DecidableEq, Inhabited

namespace Sense

variable {α : Type} [Scalar α]

/-- Whether `a` is strictly better than `b`. -/
def better (sense : Sense) (a b : α) : Bool :=
  match sense with
  | minimise => a < b
  | maximise => b < a

/-- The value that is better than every other: what a node promises before anything is known. -/
def best (sense : Sense) : α :=
  match sense with
  | minimise => -Scalar.inf
  | maximise => Scalar.inf

end Sense

structure Problem (α : Type) where
  sense : Sense
  /-- The variables that are to be whole, in ascending order. -/
  integers : Array Nat
  /-- Number of variables. -/
  size : Nat
  objective : Array α → α
  /-- Whether a point satisfies everything but integrality. -/
  accepts : Array α → Bool

end BranchBound
