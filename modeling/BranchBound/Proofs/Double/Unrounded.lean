import BranchBound.Proofs.Double.Accuracy

/-!
# Results without rounding

A fraction of a power of two whose numerator has 53 bits is a double. So a sum, a product or a
quotient that is such a fraction comes out exactly (`value_add_of_fraction`,
`value_mul_of_fraction`, `value_div_of_fraction`), and so does a sum of many natural numbers as long
as the whole of it has no more bits (`isNatural_sum`).
-/

namespace BranchBound.Double

/-- Whether a rational is a fraction of a power of two with a numerator of 53 bits. -/
def BinaryFraction (q : ℚ) : Prop := ∃ k d : ℕ, k < 2 ^ 53 ∧ d ≤ 1074 ∧ q = k / 2 ^ d

theorem fraction_natural {n : ℕ} (h : n < 2 ^ 53) : BinaryFraction n :=
  ⟨n, 0, h, Nat.zero_le _, by simp⟩

theorem BinaryFraction.fits {q : ℚ} (h : BinaryFraction q) : Fits q ∧ |q| < limit := by
  obtain ⟨k, d, hk, hd, rfl⟩ := h
  have hpow : (1 : ℚ) ≤ 2 ^ d := one_le_pow₀ one_le_two
  constructor
  · refine ⟨k, -d, ?_, by omega, ?_⟩
    · rw [Nat.abs_cast]
      exact_mod_cast hk
    · rw [zpow_neg, zpow_natCast, div_eq_mul_inv]
      push_cast
      rfl
  · have hlt : (k : ℚ) < 2 ^ 53 := by exact_mod_cast hk
    calc |(k : ℚ) / 2 ^ d| = k / 2 ^ d := abs_of_nonneg (by positivity)
      _ ≤ k := div_le_self (Nat.cast_nonneg k) hpow
      _ < 2 ^ 53 := hlt
      _ < limit := pow_lt_pow_right₀ one_lt_two (by norm_num)

section

variable {x y : Float} {p q : ℚ}

theorem value_of_fraction (h : Rounded (.ofRat q) x) (hq : BinaryFraction q) : value x = .ofRat q :=
  h.value_eq_of_fits hq.fits.1 hq.fits.2

theorem value_add_of_fraction (hx : value x = .ofRat p) (hy : value y = .ofRat q)
    (h : BinaryFraction (p + q)) : value (x + y) = .ofRat (p + q) := by
  have hrounded := rounded_add x y
  rw [hx, hy, Exact.ofRat_add] at hrounded
  exact value_of_fraction hrounded h

theorem value_mul_of_fraction (hx : value x = .ofRat p) (hy : value y = .ofRat q)
    (h : BinaryFraction (p * q)) : value (x * y) = .ofRat (p * q) := by
  have hrounded := rounded_mul x y
  rw [hx, hy, Exact.ofRat_mul] at hrounded
  exact value_of_fraction hrounded h

theorem value_div_of_fraction (hx : value x = .ofRat p) (hy : value y = .ofRat q) (hq : q ≠ 0)
    (h : BinaryFraction (p / q)) : value (x / y) = .ofRat (p / q) := by
  have hrounded := rounded_div x y (by rw [hy]; exact fun heq => hq (Exact.ofRat.inj heq))
  rw [hx, hy, Exact.ofRat_div p hq] at hrounded
  exact value_of_fraction hrounded h

end

/-! ## Natural numbers -/

/-- Whether a double is a given natural number. -/
def IsNatural (x : Float) (k : ℕ) : Prop := value x = .ofRat k

theorem IsNatural.isFinite {x : Float} {k : ℕ} (h : IsNatural x k) : Scalar.isFinite x = true :=
  isFinite_iff.mpr ⟨k, h⟩

theorem IsNatural.add {x y : Float} {k m : ℕ} (hx : IsNatural x k) (hy : IsNatural y m)
    (h : k + m < 2 ^ 53) : IsNatural (x + y) (k + m) := by
  have hsum := fraction_natural h
  rw [Nat.cast_add] at hsum
  rw [IsNatural, Nat.cast_add]
  exact value_add_of_fraction hx hy hsum

theorem isNatural_ofNat {n : ℕ} (h : n < 2 ^ 53) : IsNatural (Scalar.ofNat n) n := value_ofNat h

theorem value_two : value 2.0 = .ofRat 2 := by
  show Exact.ofRat (signed .positive ((2 ^ 52 : ℕ) * 2 ^ (-51 : ℤ))) = _
  congr 1
  norm_num [signed]

/-- The whole part of a fraction is a quotient of natural numbers. -/
theorem isNatural_floor {x : Float} {k d : ℕ} (h : value x = .ofRat (k / 2 ^ d)) :
    IsNatural (Scalar.floor x) (k / 2 ^ d) := by
  have hfloor : ⌊(k : ℚ) / 2 ^ d⌋ = ((k / 2 ^ d : ℕ) : ℤ) := by
    have hquotient := Rat.floor_natCast_div_natCast k (2 ^ d)
    rw [Nat.cast_pow] at hquotient
    exact_mod_cast hquotient
  rw [IsNatural, show value (Scalar.floor x) = Scalar.floor (value x) from value_floor x, h,
    Exact.floor_ofRat, hfloor, Int.cast_natCast]

theorem isNatural_floor_half {x : Float} {k : ℕ} (hx : IsNatural x k) (hk : k < 2 ^ 53) :
    IsNatural (Scalar.floor (x / 2.0)) (k / 2) := by
  have hfraction : BinaryFraction ((k : ℚ) / 2) :=
    ⟨k, 1, hk, by norm_num, congrArg ((k : ℚ) / ·) (pow_one (2 : ℚ)).symm⟩
  have hhalf : value (x / 2.0) = .ofRat ((k : ℚ) / 2 ^ 1) := by
    rw [value_div_of_fraction hx value_two two_ne_zero hfraction, pow_one]
  have hfloor := isNatural_floor hhalf
  rwa [pow_one] at hfloor

/-- Natural numbers are added up exactly as long as their sum has 53 bits. -/
theorem isNatural_foldl {xs : List Float} {ks : List ℕ} {x : Float} {k : ℕ}
    (h : List.Forall₂ IsNatural xs ks) (hx : IsNatural x k) (hsum : k + ks.sum < 2 ^ 53) :
    IsNatural (xs.foldl (· + ·) x) (k + ks.sum) := by
  induction h generalizing x k with
  | nil => exact hx
  | @cons y m ys ms hy hys ih =>
    rw [List.sum_cons, ← Nat.add_assoc] at hsum ⊢
    have hlt : k + m < 2 ^ 53 := (Nat.le_add_right _ _).trans_lt hsum
    exact ih (hx.add hy hlt) hsum

theorem isNatural_sum {xs : List Float} {ks : List ℕ} (h : List.Forall₂ IsNatural xs ks)
    (hsum : ks.sum < 2 ^ 53) : IsNatural (Scalar.sum xs.toArray) ks.sum := by
  unfold Scalar.sum
  rw [List.foldl_toArray]
  have hzero : IsNatural (-0.0) 0 := value_negZero
  have hfoldl := isNatural_foldl h hzero (by rwa [Nat.zero_add])
  rwa [Nat.zero_add] at hfoldl

end BranchBound.Double
