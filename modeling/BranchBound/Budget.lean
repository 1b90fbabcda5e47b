import BranchBound.Settings

/-!
# The budget of a search

Iterations are counted against two limits. At `maxIterations`, or when the time is up, no further
node is solved; a count above `ceiling` is an error that ends the search, and from then on no node
is solved either.
-/

namespace BranchBound

structure Budget where
  iterations : Nat := 0
  maxIterations : Nat
  ceiling : Nat
  /-- Milliseconds. -/
  timeLimit : Option Nat

namespace Budget

def ofSettings {α : Type} (s : Settings α) : Budget where
  maxIterations := s.maxIterations
  ceiling := s.iterationCeiling
  timeLimit := s.timeLimit

/-- The ceiling was passed. -/
def isExhausted (b : Budget) : Bool := decide (b.ceiling < b.iterations)

/-- Whether another node may be solved after this many milliseconds. -/
def allows (b : Budget) (elapsed : Nat) : Bool :=
  !b.isExhausted && decide (b.iterations < b.maxIterations) &&
    match b.timeLimit with
    | some limit => decide (elapsed < limit)
    | none => true

/-- The budget after one more iteration. -/
def spend (b : Budget) : Budget := { b with iterations := b.iterations + 1 }

/-- The count of iterations, or the error that it passed the ceiling. -/
def count {α : Type} (b : Budget) : Except (Error α) Nat :=
  if b.isExhausted then .error (.ceilingPassed b.iterations b.ceiling) else .ok b.iterations

theorem count_eq_error {α : Type} {b : Budget} (h : b.isExhausted = true) :
    (b.count : Except (Error α) Nat) = .error (.ceilingPassed b.iterations b.ceiling) := by
  unfold count
  rw [if_pos h]

theorem count_eq_ok {α : Type} {b : Budget} (h : b.isExhausted = false) :
    (b.count : Except (Error α) Nat) = .ok b.iterations := by
  unfold count
  rw [h, if_neg Bool.false_ne_true]

theorem iterations_lt_of_allows {b : Budget} {elapsed : Nat} (h : b.allows elapsed = true) :
    b.iterations < b.maxIterations := by
  simp only [allows, Bool.and_eq_true, decide_eq_true_eq] at h
  exact h.1.2

end Budget

end BranchBound
