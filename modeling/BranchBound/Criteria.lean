import BranchBound.Cutoff
import BranchBound.Node
import BranchBound.Problem
import BranchBound.Settings

/-!
# Criteria of the search

Which nodes are worth solving, where to branch, and which child comes first.

A node has to beat the incumbent by a gap: a share of the incumbent or a fixed amount, whichever is
greater. It branches on its first whole variable whose value is not whole within the tolerance, and
the side that is nearer to the value is searched first.
-/

namespace BranchBound

structure Criteria (α : Type) where
  sense : Sense
  relativeGap : α
  absoluteGap : α
  integrality : α

/-- A whole variable with a value that is not whole. -/
structure Branching (α : Type) where
  /-- Position among the whole variables. -/
  position : Nat
  var : Nat
  value : α

/-- The two children of a node. -/
structure Split (α : Type) where
  /-- The child that is searched first. -/
  continued : Node α
  forked : Node α
  /-- The side of the first child. -/
  direction : Direction

section

variable {α : Type} [Scalar α]

/-- The distance to the nearest whole number. -/
def fractionality (value : α) : α := Scalar.abs (value - Scalar.round value)

namespace Criteria

def ofSettings (sense : Sense) (s : Settings α) : Criteria α where
  sense := sense
  relativeGap := s.relativeGap
  absoluteGap := s.absoluteGap
  integrality := s.integrality

/-! ## Bounding -/

/-- The amount by which an incumbent has to be beaten. -/
def gap (c : Criteria α) (incumbent : α) : α :=
  Scalar.maxNum (Scalar.abs (incumbent * c.relativeGap)) c.absoluteGap

/-- The value that a node has to beat, given the incumbent. -/
def threshold (c : Criteria α) (incumbent : α) : α :=
  match c.sense with
  | .minimise => incumbent - c.gap incumbent
  | .maximise => incumbent + c.gap incumbent

/-- Whether a node with this objective value may beat the incumbent by the gap. Without an
incumbent every node may, and so may a node with an invalid value. -/
def mayImprove (c : Criteria α) (objective : α) (incumbent : Option α) : Bool :=
  match incumbent with
  | none => true
  | some best =>
    match c.sense with
    | .minimise => !decide (c.threshold best ≤ objective)
    | .maximise => !decide (objective ≤ c.threshold best)

/-- The cutoff for a relaxation. -/
def cutoff? (c : Criteria α) (incumbent : Option α) : Option (Cutoff α) :=
  incumbent.map fun best =>
    match c.sense with
    | .minimise => .upper (c.threshold best)
    | .maximise => .lower (c.threshold best)

/-! ## Branching -/

/-- The first of the given variables, with their positions, whose value is not whole. -/
def firstFractional? (c : Criteria α) (x : Array α) :
    List (Nat × Nat) → Except (Error α) (Option (Branching α))
  | [] => .ok none
  | (var, position) :: rest => do
    let value ← entry x var
    if c.integrality < fractionality value then return some ⟨position, var, value⟩
    firstFractional? c x rest

/-- Where a node with this point branches. -/
def branching? (c : Criteria α) (x : Array α) (node : Node α) :
    Except (Error α) (Option (Branching α)) :=
  c.firstFractional? x node.vars.toList.zipIdx

/-- Whether the given variables are whole within the tolerance. -/
def allWhole (c : Criteria α) (x : Array α) : List Nat → Except (Error α) Bool
  | [] => .ok true
  | var :: rest => do
    let value ← entry x var
    if fractionality value ≤ c.integrality then allWhole c x rest else return false

end Criteria

/-- The children of a node. The upper one comes first if the value is nearer to its bound. -/
def Node.split (node : Node α) (b : Branching α) (objective : α) : Except (Error α) (Split α) := do
  let below ← node.down b.position b.value objective
  let above ← node.up b.position b.value objective
  if 0.5 < b.value - Scalar.floor b.value then
    return { continued := above, forked := below, direction := .up }
  else
    return { continued := below, forked := above, direction := .down }

end

end BranchBound
