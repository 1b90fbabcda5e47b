import BranchBound.Criteria
import BranchBound.Scalar.Exact
import Mathlib.Algebra.Order.Field.Rat
import Mathlib.Data.Rat.Floor
import Mathlib.Tactic.Linarith
import Mathlib.Tactic.NormNum

/-!
# Order and rounding of exact numbers

Without the invalid number, exact numbers are linearly ordered, with the infinities at the ends. A
comparison with the invalid number is false, so a comparison that holds says that both of its sides
are valid (`valid_of_le`).

On rationals the operations are those of `ℚ`, and rounding is the rounding of `ℚ`
(`floor_ofRat`, `ceil_ofRat`).
-/

namespace BranchBound.Exact

open Scalar

/-! ## Comparisons of constructors -/

attribute [simp] ofRat_lt ofRat_le ofRat_add ofRat_sub ofRat_mul

@[simp] theorem not_nan_lt (a : Exact) : ¬Exact.nan < a := by
  cases a <;> exact Bool.false_ne_true

@[simp] theorem not_lt_nan (a : Exact) : ¬a < Exact.nan := by
  cases a <;> exact Bool.false_ne_true

@[simp] theorem not_nan_le (a : Exact) : ¬Exact.nan ≤ a := by
  cases a <;> exact Bool.false_ne_true

@[simp] theorem not_le_nan (a : Exact) : ¬a ≤ Exact.nan := by
  cases a <;> exact Bool.false_ne_true

@[simp] theorem not_posInf_lt (a : Exact) : ¬Exact.posInf < a := by
  cases a <;> exact Bool.false_ne_true

@[simp] theorem not_lt_negInf (a : Exact) : ¬a < Exact.negInf := by
  cases a <;> exact Bool.false_ne_true

@[simp] theorem negInf_lt_ofRat (q : Rat) : Exact.negInf < ofRat q := rfl

@[simp] theorem negInf_lt_posInf : Exact.negInf < Exact.posInf := rfl

@[simp] theorem ofRat_lt_posInf (q : Rat) : ofRat q < Exact.posInf := rfl

@[simp] theorem negInf_le_ofRat (q : Rat) : Exact.negInf ≤ ofRat q := rfl

@[simp] theorem negInf_le_posInf : Exact.negInf ≤ Exact.posInf := rfl

@[simp] theorem negInf_le_negInf : Exact.negInf ≤ Exact.negInf := rfl

@[simp] theorem ofRat_le_posInf (q : Rat) : ofRat q ≤ Exact.posInf := rfl

@[simp] theorem posInf_le_posInf : Exact.posInf ≤ Exact.posInf := rfl

@[simp] theorem not_posInf_le_ofRat (q : Rat) : ¬Exact.posInf ≤ ofRat q := Bool.false_ne_true

@[simp] theorem not_posInf_le_negInf : ¬Exact.posInf ≤ Exact.negInf := Bool.false_ne_true

@[simp] theorem not_ofRat_le_negInf (q : Rat) : ¬ofRat q ≤ Exact.negInf := Bool.false_ne_true

/-! ## The order of valid numbers -/

@[simp] theorem isNaN_eq_false_iff {a : Exact} : isNaN a = false ↔ a ≠ Exact.nan := by
  cases a <;> simp [isNaN]

theorem valid_of_le {a b : Exact} (h : a ≤ b) : a ≠ Exact.nan ∧ b ≠ Exact.nan := by
  constructor
  · rintro rfl
    exact not_nan_le b h
  · rintro rfl
    exact not_le_nan a h

theorem le_refl_of_valid {a : Exact} (h : a ≠ Exact.nan) : a ≤ a := by
  cases a <;> simp_all

protected theorem le_trans {a b c : Exact} (hab : a ≤ b) (hbc : b ≤ c) : a ≤ c := by
  cases a <;> cases b <;> cases c <;> simp_all; linarith

protected theorem lt_irrefl (a : Exact) : ¬a < a := by
  cases a <;> simp

protected theorem le_of_lt {a b : Exact} (h : a < b) : a ≤ b := by
  cases a <;> cases b <;> simp_all; linarith

protected theorem lt_of_lt_of_le {a b c : Exact} (hab : a < b) (hbc : b ≤ c) : a < c := by
  cases a <;> cases b <;> cases c <;> simp_all; linarith

protected theorem lt_of_le_of_lt {a b c : Exact} (hab : a ≤ b) (hbc : b < c) : a < c := by
  cases a <;> cases b <;> cases c <;> simp_all; linarith

protected theorem not_lt_of_le {a b : Exact} (h : a ≤ b) : ¬b < a := by
  cases a <;> cases b <;> simp_all

protected theorem le_of_not_lt {a b : Exact} (ha : a ≠ Exact.nan) (hb : b ≠ Exact.nan)
    (h : ¬b < a) : a ≤ b := by
  cases a <;> cases b <;> simp_all

protected theorem le_antisymm {a b : Exact} (hab : a ≤ b) (hba : b ≤ a) : a = b := by
  cases a <;> cases b <;> simp_all
  linarith

/-! ## Rationals -/

theorem isFinite_iff {a : Exact} : isFinite a = true ↔ ∃ q, a = ofRat q := by
  cases a <;> simp [isFinite]

@[simp] theorem isFinite_ofRat (q : Rat) : isFinite (ofRat q) = true := rfl

@[simp] theorem zero_eq : (0.0 : Exact) = ofRat 0 := by
  show ofRat _ = _
  congr 1
  norm_num

@[simp] theorem one_eq : (1.0 : Exact) = ofRat 1 := by
  show ofRat _ = _
  congr 1
  norm_num

@[simp] theorem half_eq : (0.5 : Exact) = ofRat (1 / 2) := by
  show ofRat _ = _
  congr 1
  norm_num

@[simp] theorem neg_ofRat (q : Rat) : -ofRat q = ofRat (-q) := rfl

@[simp] theorem neg_posInf : -Exact.posInf = Exact.negInf := rfl

@[simp] theorem neg_negInf : -Exact.negInf = Exact.posInf := rfl

@[simp] theorem neg_nan : -Exact.nan = Exact.nan := rfl

theorem neg_le_comm {a b : Exact} (h : -a ≤ b) : -b ≤ a := by
  cases a <;> cases b <;> simp_all
  linarith

theorem le_neg_comm {a b : Exact} (h : a ≤ -b) : b ≤ -a := by
  cases a <;> cases b <;> simp_all
  linarith

@[simp] theorem ofInt_eq (n : Int) : (Scalar.ofInt n : Exact) = ofRat n := rfl

@[simp] theorem abs_ofRat (q : Rat) : Scalar.abs (ofRat q) = ofRat |q| := by
  show ofRat q.abs = _
  rcases le_total 0 q with h | h
  · rw [Rat.abs_of_nonneg h, abs_of_nonneg h]
  · rw [Rat.abs_of_nonpos h, abs_of_nonpos h]

theorem abs_nonneg_of_valid {a : Exact} (h : Scalar.abs a ≠ Exact.nan) :
    ofRat 0 ≤ Scalar.abs a := by
  cases a with
  | ofRat q =>
    rw [abs_ofRat, ofRat_le]
    exact abs_nonneg q
  | posInf | negInf => exact ofRat_le_posInf 0
  | nan => exact absurd rfl h

protected theorem sub_zero (a : Exact) : a - ofRat 0 = a := by
  cases a <;> first | rfl | simp

protected theorem add_zero (a : Exact) : a + ofRat 0 = a := by
  cases a <;> first | rfl | simp

/-- What is below something falls when it is lowered. -/
protected theorem sub_le {a b gap : Exact} (hgap : ofRat 0 ≤ gap) (h : a < b) : a - gap ≤ a := by
  cases a <;> cases gap <;> simp_all <;> rfl

/-- What is above something rises when it is raised. -/
protected theorem le_add {a b gap : Exact} (hgap : ofRat 0 ≤ gap) (h : b < a) : a ≤ a + gap := by
  cases a <;> cases gap <;> simp_all <;> rfl

@[simp] theorem beq_ofRat (p q : Rat) : (ofRat p == ofRat q) = decide (p = q) := rfl

@[simp] theorem isNaN_ofRat (q : Rat) : isNaN (ofRat q) = false := rfl

@[simp] theorem isInfinite_ofRat (q : Rat) : isInfinite (ofRat q) = false := rfl

@[simp] theorem maxNum_ofRat (p q : Rat) : maxNum (ofRat p) (ofRat q) = ofRat (max p q) := by
  simp only [maxNum, isNaN_ofRat, Bool.false_eq_true, if_false, ofRat_lt]
  split
  · rw [max_eq_left (by linarith)]
  · rw [max_eq_right (by linarith)]

@[simp] theorem minNum_ofRat (p q : Rat) : minNum (ofRat p) (ofRat q) = ofRat (min p q) := by
  simp only [minNum, isNaN_ofRat, Bool.false_eq_true, if_false, ofRat_lt]
  split
  · rw [min_eq_left (by linarith)]
  · rw [min_eq_right (by linarith)]

/-- What gives a rational when it is scaled by one is rational itself. -/
theorem eq_ofRat_div_of_mul_eq {p q : ℚ} {v : Exact} (hq : q ≠ 0)
    (h : ofRat q * v = ofRat p) : v = ofRat (p / q) := by
  cases v with
  | ofRat r =>
    rw [ofRat_mul, ofRat.injEq] at h
    rw [← h, mul_div_cancel_left₀ r hq]
  | nan => cases h
  | posInf =>
    replace h : infTimes q = ofRat p := h
    unfold infTimes at h
    split_ifs at h
  | negInf =>
    replace h : (infTimes q).neg = ofRat p := h
    unfold infTimes at h
    split_ifs at h <;> cases h

/-! ## Rounding -/

theorem ratCeil_eq (q : Rat) : q.ceil = ⌈q⌉ := by
  rw [Rat.ceil_eq_neg_floor_neg]
  rfl

@[simp] theorem floor_ofRat (q : Rat) : Scalar.floor (ofRat q) = ofRat ⌊q⌋ := rfl

@[simp] theorem ceil_ofRat (q : Rat) : Scalar.ceil (ofRat q) = ofRat ⌈q⌉ := by
  show ofRat q.ceil = _
  rw [ratCeil_eq]

theorem truncate_eq (q : Rat) : truncate q = if q < 0 then ⌈q⌉ else ⌊q⌋ := by
  unfold truncate
  rw [ratCeil_eq]
  rfl

/-- A whole number is its own whole part. -/
@[simp] theorem truncate_intCast (n : Int) : truncate n = n := by
  unfold truncate
  split
  · rw [ratCeil_eq, Int.ceil_intCast]
  · exact Int.floor_intCast (R := ℚ) n

@[simp] theorem toInt_intCast (n : Int) : toInt (ofRat n) = n := truncate_intCast n

/-- A whole number is the nearest to itself. -/
@[simp] theorem nearest_intCast (n : Int) : nearest n = n := by
  unfold nearest
  split
  · rw [ratCeil_eq, Int.ceil_eq_iff]
    constructor <;> linarith
  · show ⌊(n : ℚ) + 1 / 2⌋ = n
    rw [Int.floor_eq_iff]
    constructor <;> linarith

/-- No whole number is nearer than the nearest one. -/
theorem abs_sub_nearest_le (q : Rat) (k : Int) : |q - nearest q| ≤ |q - k| := by
  have hhalf : |q - nearest q| ≤ 1 / 2 := by
    unfold nearest
    split
    · have hle := Int.le_ceil (q - 1 / 2)
      have hlt := Int.ceil_lt_add_one (q - 1 / 2)
      rw [ratCeil_eq, abs_le]
      constructor <;> linarith
    · have hle : (((q + 1 / 2).floor : Int) : Rat) ≤ q + 1 / 2 := Int.floor_le (q + 1 / 2)
      have hlt : q + 1 / 2 < ((q + 1 / 2).floor : Int) + 1 := Int.lt_floor_add_one (q + 1 / 2)
      rw [abs_le]
      constructor <;> linarith
  rcases eq_or_ne k (nearest q) with rfl | hne
  · exact le_rfl
  · -- two whole numbers are one apart at least
    have hgap : (1 : Rat) ≤ |((nearest q - k : Int) : Rat)| := by
      rw [← Int.cast_abs]
      exact_mod_cast Int.one_le_abs (sub_ne_zero.mpr hne.symm)
    have htriangle := abs_sub_le (nearest q : Rat) q k
    push_cast at hgap
    rw [abs_sub_comm (nearest q : Rat) q] at htriangle
    linarith

@[simp] theorem fractionality_ofRat (q : Rat) :
    fractionality (ofRat q) = ofRat |q - nearest q| := by
  show Scalar.abs (ofRat q - ofRat (nearest q)) = _
  rw [ofRat_sub, abs_ofRat]

/-- A value that is off the whole numbers lies strictly between two neighbours. -/
theorem ceil_eq_floor_add_one {q : Rat} (h : ∀ n : Int, q ≠ n) : ⌈q⌉ = ⌊q⌋ + 1 := by
  rw [Int.ceil_eq_iff]
  have hle := Int.floor_le q
  have hlt := Int.lt_floor_add_one q
  have hne : (⌊q⌋ : ℚ) ≠ q := fun he => h ⌊q⌋ he.symm
  constructor
  · push_cast
    rw [add_sub_cancel_right]
    exact lt_of_le_of_ne hle hne
  · push_cast
    exact hlt.le

end BranchBound.Exact
