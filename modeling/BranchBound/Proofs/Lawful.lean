import BranchBound.Proofs.Exact

/-!
# Lawful numbers

What the search relies on when it compares and computes, of exact and of rounded numbers alike
(`Lawful`). Every number has an exact value, and numbers compare as their values do. An operation is
*faithful*: its result lies on the same side of every number as the exact result (`Faithful`), so it
is the exact result whenever that is a number of the type.
-/

namespace BranchBound

open Scalar

/-- Whether a number stands for an exact value: it is invalid if the value is, and no number of the
type is between the two. -/
structure Faithful {α : Type} (value : α → Exact) (x : Exact) (r : α) : Prop where
  nan_iff : value r = .nan ↔ x = .nan
  le_of_le : ∀ c, x ≤ value c → value r ≤ value c
  ge_of_ge : ∀ c, value c ≤ x → value c ≤ value r

/-- Numbers that compute faithfully, and that are rounded to whole numbers exactly. -/
class Lawful (α : Type) [Scalar α] where
  /-- The exact value of a number. -/
  value : α → Exact
  lt_iff (a b : α) : a < b ↔ value a < value b
  le_iff (a b : α) : a ≤ b ↔ value a ≤ value b
  isNaN_eq (a : α) : isNaN a = isNaN (value a)
  isFinite_eq (a : α) : isFinite a = isFinite (value a)
  value_zero : value 0.0 = .ofRat 0
  value_abs (a : α) : value (Scalar.abs a) = Scalar.abs (value a)
  faithful_add (a b : α) : Faithful value (value a + value b) (a + b)
  faithful_sub (a b : α) : Faithful value (value a - value b) (a - b)
  faithful_mul (a b : α) : Faithful value (value a * value b) (a * b)
  faithful_ofInt (n : ℤ) : Faithful value (.ofRat n) (Scalar.ofInt n)
  value_floor (a : α) : value (Scalar.floor a) = Scalar.floor (value a)
  value_ceil (a : α) : value (Scalar.ceil a) = Scalar.ceil (value a)
  /-- A whole number is the nearest one to itself. -/
  value_round (a : α) (n : ℤ) : value a = .ofRat n → value (Scalar.round a) = .ofRat n
  /-- The whole neighbours of a number that is not whole are integers of the machine. -/
  toInt_floor (a : α) (q : ℚ) : value a = .ofRat q → (∀ n : ℤ, q ≠ n) → toInt (Scalar.floor a) = ⌊q⌋
  toInt_ceil (a : α) (q : ℚ) : value a = .ofRat q → (∀ n : ℤ, q ≠ n) → toInt (Scalar.ceil a) = ⌈q⌉

theorem Faithful.of_value_eq {α : Type} {value : α → Exact} {x : Exact} {r : α}
    (h : value r = x) : Faithful value x r := by
  subst h
  exact ⟨Iff.rfl, fun _ => id, fun _ => id⟩

/-- A faithful result is exact if there is a number for it. -/
theorem Faithful.value_eq {α : Type} {value : α → Exact} {x : Exact} {r c : α}
    (h : Faithful value x r) (hc : value c = x) (hx : x ≠ .nan) : value r = x := by
  subst hc
  exact Exact.le_antisymm (h.le_of_le c (Exact.le_refl_of_valid hx))
    (h.ge_of_ge c (Exact.le_refl_of_valid hx))

section

variable {α : Type} [Scalar α] [Lawful α]

open Lawful

theorem Lawful.value_maxNum (a b : α) : value (maxNum a b) = maxNum (value a) (value b) := by
  unfold maxNum
  simp only [isNaN_eq a, isNaN_eq b, lt_iff b a]
  split_ifs <;> rfl

theorem Lawful.value_minNum (a b : α) : value (minNum a b) = minNum (value a) (value b) := by
  unfold minNum
  simp only [isNaN_eq a, isNaN_eq b, lt_iff a b]
  split_ifs <;> rfl

end

/-- Exact numbers are their own values. -/
instance : Lawful Exact where
  value := id
  lt_iff _ _ := Iff.rfl
  le_iff _ _ := Iff.rfl
  isNaN_eq _ := rfl
  isFinite_eq _ := rfl
  value_zero := Exact.zero_eq
  value_abs _ := rfl
  faithful_add _ _ := .of_value_eq rfl
  faithful_sub _ _ := .of_value_eq rfl
  faithful_mul _ _ := .of_value_eq rfl
  faithful_ofInt _ := .of_value_eq rfl
  value_floor _ := rfl
  value_ceil _ := rfl
  value_round a n h := by
    obtain rfl : a = .ofRat n := h
    show Exact.ofRat (Exact.nearest n) = _
    rw [Exact.nearest_intCast]
  toInt_floor a q h _ := by
    obtain rfl : a = .ofRat q := h
    rw [Exact.floor_ofRat]
    exact Exact.toInt_intCast ⌊q⌋
  toInt_ceil a q h _ := by
    obtain rfl : a = .ofRat q := h
    rw [Exact.ceil_ofRat]
    exact Exact.toInt_intCast ⌈q⌉

end BranchBound
