import BranchBound.Error
import BranchBound.Scalar

/-!
# Nodes of the search tree

A node is a box: the whole variables with the bounds that the branches above it put on them, beside
the objective value its parent promises and its depth. Branching makes a child, which differs from
its node in one bound of one variable; bounds are replaced and not intersected. Tightening lays a
node's bounds over those of the problem, and there a bound that is looser changes nothing.

Two nodes have the same box when they have the same bounds, whatever path led to them.
-/

namespace BranchBound

/-- The whole bounds that branching put on one variable. -/
structure Cut where
  atLeast : Option Int := none
  atMost : Option Int := none
  deriving DecidableEq, Hashable

namespace Cut

/-- No bounds. -/
def free : Cut := {}

def isFree (c : Cut) : Bool := c.atLeast.isNone && c.atMost.isNone

end Cut

/-- The side of a branch. -/
inductive Direction where
  | down
  | up
  deriving DecidableEq

structure Node (α : Type) where
  /-- The whole variables of the problem. -/
  vars : Array Nat
  /-- The bounds on them, by position. -/
  cuts : Array Cut
  /-- The objective value of the parent's relaxation. -/
  estimate : α
  /-- Number of branches above. -/
  depth : Nat

namespace Node

variable {α : Type} [Scalar α]

/-- The node without bounds. -/
def root (vars : Array Nat) (estimate : α) : Node α where
  vars := vars
  cuts := Array.replicate vars.size Cut.free
  estimate := estimate
  depth := 0

/-! ## Branching -/

/-- The child with another bound at one position. -/
def child (node : Node α) (position : Nat) (recut : Cut → Cut) (estimate : α) :
    Except (Error α) (Node α) := do
  let cuts ← change node.cuts position recut
  return { node with cuts, estimate, depth := node.depth + 1 }

/-- The child below a value. -/
def down (node : Node α) (position : Nat) (value estimate : α) : Except (Error α) (Node α) :=
  let bound := Scalar.toInt (Scalar.floor value)
  node.child position (fun c => { c with atMost := some bound }) estimate

/-- The child above a value. -/
def up (node : Node α) (position : Nat) (value estimate : α) : Except (Error α) (Node α) :=
  let bound := Scalar.toInt (Scalar.ceil value)
  node.child position (fun c => { c with atLeast := some bound }) estimate

def branch (node : Node α) (direction : Direction) (position : Nat) (value estimate : α) :
    Except (Error α) (Node α) :=
  match direction with
  | .down => node.down position value estimate
  | .up => node.up position value estimate

/-! ## The box -/

/-- Whether two nodes bound the same positions in the same way. -/
def sameBox (a b : Node α) : Bool := a.cuts == b.cuts

/-- The bounded variables with their bounds, in order of position. -/
def overrides (node : Node α) : List (Nat × Cut) :=
  (node.vars.toList.zip node.cuts.toList).filter fun (_, c) => !c.isFree

/-- Lays the bounds of one variable over bounds of all of them. -/
def tightenAt (bounds : Array α × Array α) (var : Nat) (c : Cut) :
    Except (Error α) (Array α × Array α) := do
  let (lower, upper) := bounds
  let lower ← match c.atLeast with
    | some b => change lower var (Scalar.maxNum · (Scalar.ofInt b))
    | none => pure lower
  let upper ← match c.atMost with
    | some b => change upper var (Scalar.minNum · (Scalar.ofInt b))
    | none => pure upper
  return (lower, upper)

/-- Lays the bounds of a node over bounds of all variables. -/
def tighten (node : Node α) (lower upper : Array α) : Except (Error α) (Array α × Array α) :=
  node.overrides.foldlM (fun bounds (var, c) => tightenAt bounds var c) (lower, upper)

end Node

end BranchBound
