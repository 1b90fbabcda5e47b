import BranchBound.Decimal.Layout
import BranchBound.Node
import BranchBound.Scalar.Double

/-!
# Nodes as text

A node is shown by its depth, its estimate and the conditions of its box. Variable `j` is written
`xj`.
-/

namespace BranchBound

/-- The conditions on one variable as one text. -/
def Cut.text (var : Nat) (c : Cut) : String :=
  let bound := fun b : Int => Decimal.plain (Double.ofInt b)
  match c.atLeast, c.atMost with
  | some l, some u => s!"{bound l} <= x{var} <= {bound u}"
  | some l, none => s!"x{var} >= {bound l}"
  | none, some u => s!"x{var} <= {bound u}"
  | none, none => ""

def Node.text (node : Node Float) : String :=
  let conditions := node.overrides.map fun (var, c) => c.text var
  s!"depth={node.depth} est={Decimal.scientific 6 node.estimate} " ++
    "[" ++ String.intercalate ", " conditions ++ "]"

end BranchBound
