import BranchBound.Node
import Std.Data.HashSet.Lemmas

/-!
# Boxes seen before

The boxes that a search has come to. Marking a node tells whether its box is new and adds it. When
the set is off every box is new and nothing is kept.
-/

namespace BranchBound

structure Visited where
  enabled : Bool
  boxes : Std.HashSet (Array Cut) := ∅

namespace Visited

/-- Whether the node's box is new, and the set with it. -/
def mark {α : Type} (v : Visited) (node : Node α) : Bool × Visited :=
  if v.enabled then
    (!v.boxes.contains node.cuts, { v with boxes := v.boxes.insert node.cuts })
  else (true, v)

theorem mark_of_not_enabled {α : Type} {v : Visited} (h : v.enabled = false) (node : Node α) :
    v.mark node = (true, v) := by
  simp [mark, h]

theorem mark_fst {α : Type} {v : Visited} (h : v.enabled = true) (node : Node α) :
    (v.mark node).1 = true ↔ node.cuts ∉ v.boxes := by
  simp [mark, h]

theorem mem_boxes_mark {α : Type} {v : Visited} (h : v.enabled = true) (node : Node α)
    (cuts : Array Cut) : cuts ∈ (v.mark node).2.boxes ↔ cuts = node.cuts ∨ cuts ∈ v.boxes := by
  simp only [mark, h, if_true, Std.HashSet.mem_insert, beq_iff_eq]
  exact or_congr eq_comm Iff.rfl

end Visited

end BranchBound
