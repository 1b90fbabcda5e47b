import BranchBound.Scalar

/-!
# Cutoffs

A bound on the objective values that are still of interest. It is handed to a relaxation as a hint:
a node whose values are all beyond it may be reported as infeasible.
-/

namespace BranchBound

inductive Cutoff (α : Type) where
  /-- Minimising: values above are of no interest. -/
  | upper (value : α)
  /-- Maximising: values below are of no interest. -/
  | lower (value : α)

/-- Whether a value is beyond the cutoff. The value itself is not. -/
def Cutoff.excludes {α : Type} [Scalar α] (cutoff : Cutoff α) (objective : α) : Bool :=
  match cutoff with
  | upper value => value < objective
  | lower value => objective < value

end BranchBound
