import BranchBound.Proofs.Distance
import BranchBound.Proofs.Double.Negation

/-!
# Symmetric numbers

Numbers that compute alike on both sides of zero: sums and products of negatives are the negatives
of sums and products (`Symmetric`). In rounded arithmetic that holds up to the sign of zero, so it
is said of values. Numbers of one value stand in for each other in sums and products
(`value_add_congr`, `value_mul_congr`).

A number is mirrored by one of the opposite value (`Mirrored`). Comparisons of mirrored numbers are
those of the numbers the other way round.
-/

namespace BranchBound

open Scalar Lawful

/-! ## Negatives of exact numbers -/

namespace Exact

variable {a b : Exact}

protected theorem neg_neg (a : Exact) : - -a = a := by
  cases a with
  | ofRat q => rw [neg_ofRat, neg_ofRat, neg_neg]
  | _ => rfl

protected theorem zero_add (a : Exact) : ofRat 0 + a = a := by
  cases a with
  | ofRat q => rw [ofRat_add, zero_add]
  | _ => rfl

theorem neg_lt_neg_iff : -a < -b ↔ b < a := by
  cases a <;> cases b <;> simp

theorem neg_le_neg_iff : -a ≤ -b ↔ b ≤ a := by
  cases a <;> cases b <;> simp

theorem isNaN_neg (a : Exact) : isNaN (-a) = isNaN a := by
  cases a <;> rfl

protected theorem abs_neg (a : Exact) : Scalar.abs (-a) = Scalar.abs a := by
  cases a with
  | ofRat q => rw [neg_ofRat, abs_ofRat, abs_ofRat, abs_neg]
  | _ => rfl

theorem neg_add_neg (a b : Exact) : -a + -b = -(a + b) := by
  cases a <;> cases b <;> first | rfl | simp [add_comm]

theorem infTimes_neg (q : ℚ) : infTimes (-q) = -infTimes q := by
  unfold infTimes
  rcases lt_trichotomy q 0 with h | rfl | h
  · rw [if_neg (by linarith), if_pos (by linarith), if_neg h.ne, if_neg h.not_gt, neg_negInf]
  · simp
  · rw [if_neg (by linarith), if_neg (by linarith), if_neg h.ne', if_pos h, neg_posInf]

protected theorem neg_mul (a b : Exact) : -a * b = -(a * b) := by
  cases a with
  | nan => cases b <;> rfl
  | posInf => cases b <;> rfl
  | negInf =>
    cases b with
    | ofRat q => exact (Exact.neg_neg (infTimes q)).symm
    | _ => rfl
  | ofRat p =>
    cases b with
    | nan => rfl
    | posInf => exact infTimes_neg p
    | negInf => exact congrArg Exact.neg (infTimes_neg p)
    | ofRat q => rw [neg_ofRat, ofRat_mul, ofRat_mul, neg_ofRat, neg_mul]

end Exact

/-! ## Symmetry -/

/-- Numbers of which only zero may have several representations, and that compute with negatives as
with the numbers themselves. -/
class Symmetric (α : Type) [Scalar α] extends Measured α where
  eq_or_zero (a b : α) : value a = value b → a = b ∨ value a = .ofRat 0
  neg_neg (a : α) : - -a = a
  value_neg (a : α) : value (-a) = -value a
  sub_eq (a b : α) : a - b = a + -b
  value_neg_add_neg (a b : α) : value (-a + -b) = -value (a + b)
  value_neg_mul (a b : α) : value (-a * b) = -value (a * b)

instance : Symmetric Exact where
  eq_or_zero _ _ h := Or.inl h
  neg_neg := Exact.neg_neg
  value_neg _ := rfl
  sub_eq _ _ := rfl
  value_neg_add_neg := Exact.neg_add_neg
  value_neg_mul := Exact.neg_mul

instance : Symmetric Float where
  eq_or_zero _ _ := Double.eq_or_zero
  neg_neg := Double.neg_neg
  value_neg := Double.value_neg
  sub_eq := Double.sub_eq_add_neg
  value_neg_add_neg := Double.value_neg_add_neg
  value_neg_mul := Double.value_neg_mul

variable {α : Type} [Scalar α]

section

variable [Lawful α] {a b : α}

/-- Adding a zero changes no value. -/
theorem value_zero_add (h : value a = .ofRat 0) : value (a + b) = value b := by
  have hfaithful := faithful_add a b
  rw [h, Exact.zero_add] at hfaithful
  by_cases hnan : value b = .nan
  · rw [hfaithful.nan_iff.mpr hnan, hnan]
  · exact hfaithful.value_eq rfl hnan

theorem value_add_zero (h : value b = .ofRat 0) : value (a + b) = value a := by
  have hfaithful := faithful_add a b
  rw [h, Exact.add_zero] at hfaithful
  by_cases hnan : value a = .nan
  · rw [hfaithful.nan_iff.mpr hnan, hnan]
  · exact hfaithful.value_eq rfl hnan

/-- A zero times a number is zero, or invalid if the number is not finite. -/
theorem value_zero_mul (h : value a = .ofRat 0) : value (a * b) = .ofRat 0 * value b := by
  have hfaithful := faithful_mul a b
  rw [h] at hfaithful
  by_cases hnan : Exact.ofRat 0 * value b = .nan
  · rw [hfaithful.nan_iff.mpr hnan, hnan]
  · refine hfaithful.value_eq (c := 0.0) ?_ hnan
    rw [value_zero]
    cases hb : value b with
    | ofRat q => rw [Exact.ofRat_mul, zero_mul]
    | posInf | negInf | nan =>
      rw [hb] at hnan
      exact absurd rfl hnan

end

variable [Symmetric α] {a a' b b' : α}

/-- Numbers of one value have the same sums, by value. -/
theorem value_add_congr (ha : value a = value a') (hb : value b = value b') :
    value (a + b) = value (a' + b') := by
  rcases Symmetric.eq_or_zero a a' ha with rfl | hzero
  · rcases Symmetric.eq_or_zero b b' hb with rfl | hzero
    · rfl
    · rw [value_add_zero hzero, value_add_zero (hb ▸ hzero)]
  · rw [value_zero_add hzero, value_zero_add (ha ▸ hzero), hb]

theorem value_mul_congr (ha : value a = value a') : value (a * b) = value (a' * b) := by
  rcases Symmetric.eq_or_zero a a' ha with rfl | hzero
  · rfl
  · rw [value_zero_mul hzero, value_zero_mul (ha ▸ hzero)]

theorem value_maxNum_congr (ha : value a = value a') (hb : value b = value b') :
    value (maxNum a b) = value (maxNum a' b') := by
  unfold maxNum
  rw [isNaN_eq a, isNaN_eq b, isNaN_eq a', isNaN_eq b', ha, hb]
  have hlt : b < a ↔ b' < a' := by rw [lt_iff b a, lt_iff b' a', ha, hb]
  simp only [hlt]
  split_ifs <;> assumption

/-! ## Mirrored numbers -/

/-- Whether a number has the opposite value of another one. -/
def Mirrored (a b : α) : Prop := value b = -value a

theorem mirrored_neg (a : α) : Mirrored a (-a) := Symmetric.value_neg a

theorem mirrored_nan : Mirrored (nan : α) nan := by
  unfold Mirrored
  rw [Measured.value_nan]
  rfl

namespace Mirrored

variable {c c' : α}

protected theorem symm (h : Mirrored a b) : Mirrored b a := by
  unfold Mirrored at h ⊢
  rw [h, Exact.neg_neg]

theorem value_eq (h : Mirrored a b) : value b = value (-a) := by
  rw [Symmetric.value_neg]
  exact h

protected theorem neg (h : Mirrored a b) : Mirrored (-a) (-b) := by
  unfold Mirrored at h ⊢
  rw [Symmetric.value_neg, Symmetric.value_neg, h]

protected theorem add (h : Mirrored a b) (h' : Mirrored c c') : Mirrored (a + c) (b + c') := by
  unfold Mirrored
  rw [value_add_congr h.value_eq h'.value_eq, Symmetric.value_neg_add_neg]

/-- Numbers of one value are taken from one number and added to the other. -/
theorem sub_add (h : Mirrored a b) (hc : value c = value c') : Mirrored (a - c) (b + c') := by
  rw [Symmetric.sub_eq]
  refine h.add ?_
  unfold Mirrored
  rw [Symmetric.value_neg, Exact.neg_neg, hc]

theorem mul_right (h : Mirrored a b) (c : α) : Mirrored (a * c) (b * c) := by
  unfold Mirrored
  rw [value_mul_congr h.value_eq, Symmetric.value_neg_mul]

theorem value_abs_eq (h : Mirrored a b) : value (Scalar.abs b) = value (Scalar.abs a) := by
  rw [value_abs, value_abs, h, Exact.abs_neg]

theorem isNaN_eq (h : Mirrored a b) : isNaN b = isNaN a := by
  rw [Lawful.isNaN_eq a, Lawful.isNaN_eq b, h, Exact.isNaN_neg]

theorem lt_iff (h : Mirrored a b) (h' : Mirrored c c') : b < c' ↔ c < a := by
  rw [Lawful.lt_iff b c', Lawful.lt_iff c a, h, h', Exact.neg_lt_neg_iff]

theorem le_iff (h : Mirrored a b) (h' : Mirrored c c') : b ≤ c' ↔ c ≤ a := by
  rw [Lawful.le_iff b c', Lawful.le_iff c a, h, h', Exact.neg_le_neg_iff]

end Mirrored

end BranchBound
