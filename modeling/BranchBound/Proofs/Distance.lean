import BranchBound.Proofs.Double.Whole

/-!
# Distances to whole numbers

How far a number is from the whole ones is computed without rounding, also of doubles: a double and
the integers next to it are multiples of one unit, and so is their difference, which has no more
bits than the double (`Double.value_sub_ofInt`). So a number whose `fractionality` is within a
tolerance is that near to an integer (`exists_near_of_le`).
-/

namespace BranchBound

open Scalar

/-- Numbers whose distance to a nearby integer is computed without rounding. -/
class Measured (α : Type) [Scalar α] extends Lawful α where
  value_nan : value (nan : α) = .nan
  value_fractionality (a : α) (q : ℚ) : value a = .ofRat q →
    ∃ n : ℤ, value (fractionality a) = .ofRat |q - n|

instance : Measured Exact where
  value_nan := rfl
  value_fractionality a q h := by
    obtain rfl : a = .ofRat q := h
    exact ⟨Exact.nearest q, Exact.fractionality_ofRat q⟩

/-! ## Doubles -/

namespace Double

open Float.Model Float.Model.UnpackedFloat

/-- The difference to an integer that is at least as near as zero has no more bits. -/
theorem fits_sub_int {q : ℚ} (h : Fits q) (hq : |q| < 2 ^ 53) {n : ℤ} (hn : |q - n| ≤ |q|) :
    Fits (q - n) := by
  obtain ⟨k, f, hk, hf, rfl⟩ := h
  rcases le_or_gt f 0 with h0 | h0
  · -- both are multiples of the unit
    obtain ⟨d, rfl⟩ : ∃ d : ℕ, f = -d := ⟨(-f).toNat, by omega⟩
    have hunit : (0 : ℚ) < 2 ^ (-(d : ℤ)) := zpow_pos two_pos _
    have hsub : (k : ℚ) * 2 ^ (-(d : ℤ)) - n = (k - n * 2 ^ d : ℤ) * 2 ^ (-(d : ℤ)) := by
      have hone : (2 : ℚ) ^ d * 2 ^ (-(d : ℤ)) = 1 := by
        rw [← zpow_natCast, ← zpow_add₀ two_ne_zero, add_neg_cancel, zpow_zero]
      push_cast
      rw [sub_mul, mul_assoc, hone, mul_one]
    refine ⟨k - n * 2 ^ d, -d, ?_, hf, hsub⟩
    rw [hsub, abs_mul, abs_mul, mul_le_mul_iff_of_pos_right (abs_pos.mpr hunit.ne')] at hn
    have hle : |k - n * 2 ^ d| ≤ |k| := by exact_mod_cast hn
    exact hle.trans_lt hk
  · -- both are whole
    lift f to ℕ using h0.le
    refine ⟨k * 2 ^ f - n, 0, ?_, by norm_num, by push_cast; simp⟩
    have hlt := hn.trans_lt hq
    rw [zpow_natCast] at hlt
    exact_mod_cast hlt

variable {x : Float} {q : ℚ}

/-- The difference of a double to an integer that is at least as near as zero is exact. -/
theorem value_sub_ofInt (h : value x = .ofRat q) (hq : |q| < 2 ^ 52) {n : ℤ} (hn : |n| < 2 ^ 53)
    (hle : |q - n| ≤ |q|) : value (x - ofInt n) = .ofRat (q - n) := by
  have hfits : Fits (q - n) :=
    fits_sub_int (fits_of_value h).1 (hq.trans (by norm_num)) hle
  have hlimit : |q - n| < limit :=
    (hle.trans_lt hq).trans (pow_lt_pow_right₀ one_lt_two (by norm_num))
  have hrounded := rounded_sub x (ofInt n)
  rw [h, value_ofInt hn, Exact.ofRat_sub] at hrounded
  exact hrounded.value_eq_of_fits hfits hlimit

/-- The whole part is at least as near as zero, and so is the integer next to it on the far side of
a half. -/
theorem abs_sub_truncate_le (q : ℚ) : |q - Exact.truncate q| ≤ |q| ∧
    (1 / 2 ≤ q - Exact.truncate q → |q - (Exact.truncate q + 1 : ℤ)| ≤ |q|) ∧
    (q - Exact.truncate q ≤ -(1 / 2) → |q - (Exact.truncate q - 1 : ℤ)| ≤ |q|) := by
  rw [Exact.truncate_eq]
  push_cast
  split
  · rename_i hneg
    have hle := Int.le_ceil q
    have hceil : (⌈q⌉ : ℚ) ≤ 0 := by exact_mod_cast Int.ceil_le.mpr (by simpa using hneg.le)
    rw [abs_of_neg hneg, abs_le, abs_le, abs_le]
    refine ⟨?_, fun _ => ?_, fun _ => ?_⟩ <;> constructor <;> linarith
  · rename_i hpos
    have hle := Int.floor_le q
    have hfloor : (0 : ℚ) ≤ ⌊q⌋ := by exact_mod_cast Int.floor_nonneg.mpr (not_lt.mp hpos)
    rw [abs_of_nonneg (not_lt.mp hpos), abs_le, abs_le, abs_le]
    refine ⟨?_, fun _ => ?_, fun _ => ?_⟩ <;> constructor <;> linarith

/-- A double is rounded to an integer that is at least as near as zero. -/
theorem round_eq (h : value x = .ofRat q) (hq : |q| < 2 ^ 52) :
    ∃ n : ℤ, round x = ofInt n ∧ |n| < 2 ^ 53 ∧ |q - n| ≤ |q| := by
  obtain ⟨hsame, hup, hdown⟩ := abs_sub_truncate_le q
  have htruncate := truncate_eq_of_lt h hq
  have hd : value (x - ofInt (truncate x)) = .ofRat (q - Exact.truncate q) := by
    rw [htruncate]
    exact value_sub_ofInt h hq (whole_bounds hq).2.2 hsame
  -- an integer that is so near is at most twice as far from zero
  have hbound : ∀ n : ℤ, |q - n| ≤ |q| → |n| < 2 ^ 53 := by
    intro n hn
    have hlt : |(n : ℚ)| < 2 ^ 53 := by
      have htri : |(n : ℚ)| ≤ |q| + |q - n| := by
        have := abs_sub_abs_le_abs_sub (n : ℚ) q
        rw [abs_sub_comm] at this
        linarith
      linarith
    exact_mod_cast hlt
  unfold round
  rw [if_pos ((abs_lt_wholeFrom_iff h).mpr hq)]
  dsimp only
  split
  · rename_i hhalf
    rw [le_iff, hd, value_half, Exact.ofRat_le] at hhalf
    have hle := hup hhalf
    exact ⟨_, by rw [htruncate], hbound _ hle, hle⟩
  · split
    · rename_i hhalf
      rw [le_iff, hd, value_neg, value_half, Exact.neg_ofRat, Exact.ofRat_le] at hhalf
      have hle := hdown hhalf
      exact ⟨_, by rw [htruncate], hbound _ hle, hle⟩
    · exact ⟨_, by rw [htruncate], hbound _ hsame, hsame⟩

theorem value_fractionality (h : value x = .ofRat q) :
    ∃ n : ℤ, value (fractionality x) = .ofRat |q - n| := by
  suffices hsub : ∃ n : ℤ, value (x - round x) = .ofRat (q - n) by
    obtain ⟨n, hn⟩ := hsub
    refine ⟨n, ?_⟩
    show value (x - round x).abs = _
    rw [value_abs, hn, Exact.abs_ofRat]
  rcases lt_or_ge |q| (2 ^ 52) with hq | hq
  · obtain ⟨n, hround, hn, hle⟩ := round_eq h hq
    rw [hround]
    exact ⟨n, value_sub_ofInt h hq hn hle⟩
  · -- a whole number is nearest to itself
    obtain ⟨n, rfl⟩ := whole_of_le h hq
    have hfaithful := (rounded_sub x (round x)).toFaithful
    rw [value_round h, h, Exact.ofRat_sub, sub_self] at hfaithful
    refine ⟨n, ?_⟩
    rw [sub_self]
    exact hfaithful.value_eq value_zero (nomatch ·)

end Double

instance : Measured Float where
  value_nan := rfl
  value_fractionality _ _ := Double.value_fractionality

/-! ## Tolerances -/

section

variable {α : Type} [Scalar α] [Measured α] {a tolerance : α}

open Lawful

/-- A finite number with a fractionality within a tolerance is that near to an integer. -/
theorem exists_near_of_le (ha : isFinite a = true) (h : fractionality a ≤ tolerance) :
    ∃ (q : ℚ) (n : ℤ), value a = .ofRat q ∧ .ofRat |q - n| ≤ value tolerance := by
  rw [isFinite_eq] at ha
  obtain ⟨q, hq⟩ := Exact.isFinite_iff.mp ha
  obtain ⟨n, hn⟩ := Measured.value_fractionality a q hq
  rw [le_iff, hn] at h
  exact ⟨q, n, hq, h⟩

/-- So is one whose fractionality does not exceed a finite tolerance: neither is invalid. -/
theorem exists_near_of_not_lt (ha : isFinite a = true) (htolerance : isFinite tolerance = true)
    (h : ¬tolerance < fractionality a) :
    ∃ (q : ℚ) (n : ℤ), value a = .ofRat q ∧ .ofRat |q - n| ≤ value tolerance := by
  refine exists_near_of_le ha ?_
  rw [isFinite_eq] at ha htolerance
  obtain ⟨q, hq⟩ := Exact.isFinite_iff.mp ha
  obtain ⟨t, ht⟩ := Exact.isFinite_iff.mp htolerance
  obtain ⟨n, hn⟩ := Measured.value_fractionality a q hq
  rw [lt_iff, hn, ht, Exact.ofRat_lt, not_lt] at h
  rw [le_iff, hn, ht, Exact.ofRat_le]
  exact h

end

end BranchBound
