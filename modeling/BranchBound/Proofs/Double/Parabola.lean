import BranchBound.Proofs.Double.Whole
import BranchBound.Proofs.Visit

/-!
# A parabola in doubles

A problem in one whole variable on which theorems about searches are tried: the greatest value of
`x * (2.75 - x)`. It is solved by hand for the nodes of its tree. The greatest value is at three
halves, below that at one, and above it at two.
-/

namespace BranchBound

namespace Parabola

def problem : Problem Float where
  sense := .maximise
  integers := #[0]
  size := 1
  objective x := x.getD 0 0.0 * (2.75 - x.getD 0 0.0)
  accepts x := x.all fun v => decide (0.0 ≤ v)

/-- The best points, for what is left to the variable. -/
def points : List (Cut × Float) :=
  [(.free, 1.5), ({ atMost := some 1 }, 1.0), ({ atLeast := some 2 }, 2.0)]

def answers (node : Node Float) : Answer Float :=
  match points.find? fun entry => decide (node.cuts[0]? = some entry.1) with
  | some entry => .optimal #[entry.2] (problem.objective #[entry.2])
  | none => .infeasible

/-- A search without a gap. -/
def search (relaxation : Relaxation Float) : Search Float where
  problem := problem
  relaxation := relaxation
  settings := { Settings.standard with relativeGap := 0.0 }

/-- An answer with a point has one of the best points. -/
theorem of_feasible {node : Node Float} (h : (answers node).verdict.isFeasible = true) :
    ∃ entry ∈ points, node.cuts[0]? = some entry.1 ∧ (answers node).point = #[entry.2] := by
  unfold answers at h ⊢
  split
  · rename_i entry hfound
    refine ⟨entry, List.mem_of_find?_eq_some hfound, ?_, rfl⟩
    have hcut := List.find?_some hfound
    exact of_decide_eq_true hcut
  · rename_i hnone
    rw [hnone] at h
    cases h

theorem isUsable_answers {relaxation : Relaxation Float} {node : Node Float}
    (h : (answers node).verdict.isFeasible = true) :
    Visit.isUsable (search relaxation) (answers node).point = true := by
  obtain ⟨entry, hentry, -, hpoint⟩ := of_feasible h
  have hall : ∀ entry ∈ points, Visit.isUsable (search (fun _ _ _ => .ok .failed)) #[entry.2] =
      true := by decide +kernel
  rw [hpoint]
  exact hall entry hentry

end Parabola

end BranchBound
