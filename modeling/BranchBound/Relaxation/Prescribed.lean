import BranchBound.Node.Text
import BranchBound.Program
import BranchBound.Relaxation

/-!
# Prescribed relaxations

Relaxations whose answers are given beforehand, by the number of the call or by the look of the
node, and one that halves the box. They drive a search along a tree that is known in advance.
-/

namespace BranchBound.Relaxation

/-- Gives the answers one after the other, and the last one from then on. -/
def replay {α : Type} [Scalar α] (answers : Array (Answer α)) : Relaxation α := fun call _ _ =>
  .ok ((answers[call]? <|> answers.back?).getD .failed)

/-- An answer for the nodes that meet a condition on the depth and one on the end of the text. -/
structure Rule where
  depth : Option Nat
  ending : Option String
  answer : Answer Float

def Rule.fits (rule : Rule) (node : Node Float) : Bool :=
  rule.depth.all (· == node.depth) && rule.ending.all (node.text.endsWith ·)

/-- Gives the answer of the first rule that fits. -/
def byRules (rules : List Rule) (fallback : Answer Float) : Relaxation Float := fun _ node _ =>
  .ok (((rules.find? (·.fits node)).map Rule.answer).getD fallback)

/-- Answers with the middle of the box, whatever the rows and the cutoff say. -/
def midpoint {α : Type} [Scalar α] (p : Program α) : Relaxation α := fun _ node _ => do
  let (lower, upper) ← node.tighten p.lower p.upper
  if (lower.zip upper).any fun (l, u) => decide (u < l) then return .infeasible
  let x := Array.zipWith (fun l u => (l + u) / 2.0) lower upper
  return .optimal x (p.objective x)

end BranchBound.Relaxation
