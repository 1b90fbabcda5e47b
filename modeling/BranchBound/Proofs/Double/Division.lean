import BranchBound.Proofs.Double.Value
import Mathlib.Tactic.Linarith

/-!
# Dividing doubles

Dividing rounds the exact quotient (`rounded_div`), as the other operations do. A quotient of
mantissas has no end in general: what is kept of it is its whole part at some exponent, and on which
side of the next half it is. That is as much as two more bits would tell
(`ofMantissaAndAccuracy_eq`), so the mantissa with these two bits is rounded in place of the
quotient.

This is right because rounding looks at nothing finer. Two numbers on the same side of all multiples
of half a unit have the same nearest number of 53 bits, as long as that unit is not too coarse
(`Nearest.of_sameSide`).
-/

namespace BranchBound.Double

open Float.Model Float.Model.UnpackedFloat

/-! ## Numbers between the same halves -/

/-- Whether two numbers are on the same side of every multiple of half a power of two. -/
def SameSide (e : ℤ) (q q' : ℚ) : Prop :=
  ∀ c : ℤ, (q ≤ c * 2 ^ (e - 1) ↔ q' ≤ c * 2 ^ (e - 1)) ∧
    (c * 2 ^ (e - 1) ≤ q ↔ c * 2 ^ (e - 1) ≤ q')

section

variable {e : ℤ} {q q' r : ℚ}

/-- A multiple of a greater power of two is one of half the power. -/
theorem exists_eq_mul_half {k f : ℤ} (h : e - 1 ≤ f) :
    ∃ c : ℤ, (k : ℚ) * 2 ^ f = c * 2 ^ (e - 1) := by
  refine ⟨k * 2 ^ (f - (e - 1)).toNat, ?_⟩
  push_cast
  rw [mul_assoc, ← zpow_natCast, ← zpow_add₀ two_ne_zero]
  congr 2
  omega

theorem SameSide.le_iff (h : SameSide e q q') {k f : ℤ} (hf : e - 1 ≤ f) :
    (q ≤ k * 2 ^ f ↔ q' ≤ k * 2 ^ f) ∧ (k * 2 ^ f ≤ q ↔ k * 2 ^ f ≤ q') := by
  obtain ⟨c, hc⟩ := exists_eq_mul_half (k := k) hf
  rw [hc]
  exact h c

theorem SameSide.eq_iff (h : SameSide e q q') {k f : ℤ} (hf : e - 1 ≤ f) :
    q = k * 2 ^ f ↔ q' = k * 2 ^ f := by
  rw [le_antisymm_iff, le_antisymm_iff, (h.le_iff hf).1, (h.le_iff hf).2]

theorem SameSide.pow_le_iff (h : SameSide e q q') (n : ℕ) {f : ℤ} (hf : e - 1 ≤ f) :
    2 ^ n * 2 ^ f ≤ q ↔ 2 ^ n * 2 ^ f ≤ q' := by
  have hle := (h.le_iff (k := 2 ^ n) hf).2
  rwa [Int.cast_pow, Int.cast_ofNat] at hle

variable (h : SameSide e q q') (h0 : 0 ≤ q) (h0' : 0 ≤ q') (he : e ≤ -1074 ∨ 2 ^ 52 * 2 ^ e ≤ q')

include h h0 h0' he

theorem NearestAt.of_sameSide {k t : ℤ} (hk : NearestAt q' k t) : NearestAt q k t := by
  have hle : e ≤ t := by
    have hleast := hk.least
    rcases he with he | he
    · omega
    · have hlt := hk.lt
      rw [abs_of_nonneg h0'] at hlt
      by_contra hgt
      have hunit : (2 : ℚ) ^ (t + 1) ≤ 2 ^ e := zpow_le_zpow_right₀ one_le_two (by omega)
      rw [zpow_add_one₀ two_ne_zero] at hunit
      linarith
  have hhalf : (2 : ℚ) ^ t = 2 * 2 ^ (t - 1) := by
    rw [zpow_sub_one₀ two_ne_zero]
    ring
  -- that a multiple is nearest is said by the two halves next to it
  have hnear : ∀ p : ℚ, 2 * |k * 2 ^ t - p| ≤ 2 ^ t ↔
      ((2 * k - 1 : ℤ) : ℚ) * 2 ^ (t - 1) ≤ p ∧ p ≤ ((2 * k + 1 : ℤ) : ℚ) * 2 ^ (t - 1) := by
    intro p
    rw [hhalf, mul_le_mul_iff_right₀ two_pos, abs_le]
    push_cast
    constructor <;> rintro ⟨hlo, hhi⟩ <;> constructor <;> linarith
  have htie : ∀ p : ℚ, 2 * |k * 2 ^ t - p| = 2 ^ t ↔
      p = ((2 * k - 1 : ℤ) : ℚ) * 2 ^ (t - 1) ∨ p = ((2 * k + 1 : ℤ) : ℚ) * 2 ^ (t - 1) := by
    intro p
    rw [hhalf, mul_right_inj' two_ne_zero, abs_eq (zpow_nonneg two_pos.le _)]
    push_cast
    constructor <;> rintro (heq | heq)
    · exact Or.inl (by linarith)
    · exact Or.inr (by linarith)
    · exact Or.inl (by linarith)
    · exact Or.inr (by linarith)
  have hlo := h.le_iff (k := 2 * k - 1) (f := t - 1) (by omega)
  have hhi := h.le_iff (k := 2 * k + 1) (f := t - 1) (by omega)
  refine ⟨hk.least, ?_, fun hmin => ?_, ?_, fun htied => hk.even ?_⟩
  · have hlt := hk.lt
    rw [abs_of_nonneg h0'] at hlt
    rwa [abs_of_nonneg h0, ← not_le, h.pow_le_iff 53 (by omega), not_le]
  · have hfull := hk.full hmin
    rw [abs_of_nonneg h0'] at hfull
    rwa [abs_of_nonneg h0, h.pow_le_iff 52 (by omega)]
  · rw [hnear, hlo.2, hhi.1, ← hnear]
    exact hk.near
  · rwa [htie, ← h.eq_iff (by omega), ← h.eq_iff (by omega), ← htie]

/-- What is nearest to a number is nearest to the ones between the same halves. -/
theorem Nearest.of_sameSide (hr : Nearest q' r) : Nearest q r := by
  obtain ⟨k, t, hk, rfl⟩ := hr.exists_at
  refine ⟨fun c hc => ?_, k, t, hk.of_sameSide h h0 h0' he, rfl⟩
  obtain ⟨hle, hge⟩ := hr.rounds c hc
  obtain ⟨m, f, hm, hf, rfl⟩ := hc
  by_cases hcoarse : e - 1 ≤ f
  · rw [(h.le_iff hcoarse).1, (h.le_iff hcoarse).2]
    exact ⟨hle, hge⟩
  · -- finer numbers of 53 bits are below both
    have hfull := he.resolve_left (by omega)
    have hfull' := (h.pow_le_iff 52 (by omega)).mpr hfull
    have hbelow : (m : ℚ) * 2 ^ f < 2 ^ 52 * 2 ^ e := by
      have hbits : (m : ℚ) < 2 ^ 53 := by exact_mod_cast (abs_lt.mp hm).2
      have hunit : (2 : ℚ) ^ (f + 1) ≤ 2 ^ e := zpow_le_zpow_right₀ one_le_two (by omega)
      have hpos : (0 : ℚ) < 2 ^ f := zpow_pos two_pos f
      rw [zpow_add_one₀ two_ne_zero] at hunit
      have hprod := mul_lt_mul_of_pos_right hbits hpos
      linarith
    exact ⟨fun hq => absurd hq (by linarith), fun _ => hge (by linarith)⟩

end

/-! ## Quotients of mantissas -/

/-- What two more bits of a quotient would be: they tell whether what is left over is nothing, less
than half, half, or more. -/
def extraBits (num den : ℕ) : ℕ :=
  if num = 0 then 0 else if 2 * num < den then 1 else if 2 * num = den then 2 else 3

theorem extraBits_lt (num den : ℕ) : extraBits num den < 4 := by
  unfold extraBits
  split_ifs <;> norm_num

/-- A quotient and the accuracy of what is left over are a mantissa with two more bits, shifted. -/
theorem ofMantissaAndAccuracy_eq (q num den : ℕ) :
    ExtendedMantissa.ofMantissaAndAccuracy q (accuracyOfFraction num den) =
      shifted (4 * q + extraBits num den) 2 := by
  have hbits := extraBits_lt num den
  have hquotient : (4 * q + extraBits num den) / 2 ^ 1 / 2 = q := by omega
  rw [shifted_succ, hquotient]
  unfold accuracyOfFraction extraBits
  split_ifs with hzero hlt heq
  · simp [ExtendedMantissa.ofMantissaAndAccuracy]
    omega
  · rw [compare_lt_iff_lt.mpr hlt]
    simp [ExtendedMantissa.ofMantissaAndAccuracy]
    omega
  · rw [compare_eq_iff_eq.mpr heq]
    simp [ExtendedMantissa.ofMantissaAndAccuracy]
    omega
  · rw [compare_gt_iff_gt.mpr (by omega)]
    simp [ExtendedMantissa.ofMantissaAndAccuracy]
    omega

/-- The two bits tell on which side of a half the quotient is. -/
theorem extraBits_le_iff {num den : ℕ} (hlt : num < den) (c : ℤ) :
    (2 * num ≤ c * den ↔ extraBits num den ≤ 2 * c) ∧
      (c * den ≤ 2 * num ↔ 2 * c ≤ extraBits num den) := by
  have hbits := extraBits_lt num den
  have hcases : c ≤ -1 ∨ c = 0 ∨ c = 1 ∨ 2 ≤ c := by omega
  rcases hcases with hneg | rfl | rfl | htwo
  · have hprod : c * den ≤ -1 * den := mul_le_mul_of_nonneg_right hneg (Int.natCast_nonneg den)
    constructor <;> omega
  · unfold extraBits at hbits ⊢
    split_ifs <;> omega
  · unfold extraBits at hbits ⊢
    split_ifs <;> omega
  · have hprod : 2 * (den : ℤ) ≤ c * den := mul_le_mul_of_nonneg_right htwo (Int.natCast_nonneg den)
    constructor <;> omega

/-- The mantissa with two more bits is between the same halves as the quotient. -/
theorem sameSide_quotient (m : ℕ) {den : ℕ} (hden : 0 < den) (e : ℤ) :
    SameSide e (m / den * 2 ^ e)
      ((4 * (m / den) + extraBits (m % den) den : ℕ) * 2 ^ (e - 2)) := by
  intro c
  obtain ⟨hle, hge⟩ := extraBits_le_iff (Nat.mod_lt m hden) (c - 2 * (m / den : ℕ))
  have hsplit : (m : ℤ) = den * (m / den : ℕ) + (m % den : ℕ) := by
    exact_mod_cast (Nat.div_add_mod m den).symm
  have hdenq : (0 : ℚ) < den := by exact_mod_cast hden
  have hpos : (0 : ℚ) < 2 ^ (e - 2) := zpow_pos two_pos _
  have hone : (2 : ℚ) ^ (e - 1) = 2 * 2 ^ (e - 2) := by
    rw [← zpow_one_add₀ two_ne_zero]
    congr 1
    ring
  have htwo : (2 : ℚ) ^ e = 4 * 2 ^ (e - 2) := by
    rw [show e = e - 2 + 1 + 1 by ring, zpow_add_one₀ two_ne_zero, zpow_add_one₀ two_ne_zero]
    ring_nf
  -- in units of a quarter, and without the divisor
  have hquotient : (m : ℚ) / den * 2 ^ e = m / den * 4 * 2 ^ (e - 2) := by
    rw [htwo]
    ring
  have hhalf : (c : ℚ) * 2 ^ (e - 1) = c * 2 * 2 ^ (e - 2) := by
    rw [hone]
    ring
  have hmul : (c - 2 * (m / den : ℕ)) * (den : ℤ) = c * den - 2 * (den * (m / den : ℕ)) := by ring
  rw [hmul] at hle hge
  rw [hquotient, hhalf]
  simp only [mul_le_mul_iff_left₀ hpos]
  rw [div_mul_eq_mul_div, div_le_iff₀ hdenq, le_div_iff₀ hdenq]
  constructor
  · have hlo : (m : ℚ) * 4 ≤ c * 2 * den ↔ 2 * (m : ℤ) ≤ c * den := by
      rw [← Int.cast_le (R := ℚ)]
      push_cast
      constructor <;> intro hlt <;> linarith
    have hhi : ((4 * (m / den) + extraBits (m % den) den : ℕ) : ℚ) ≤ c * 2 ↔
        4 * ((m / den : ℕ) : ℤ) + extraBits (m % den) den ≤ c * 2 := by
      rw [← Int.cast_le (R := ℚ)]
      push_cast
      rfl
    rw [hlo, hhi]
    omega
  · have hlo : (c : ℚ) * 2 * den ≤ m * 4 ↔ c * den ≤ 2 * (m : ℤ) := by
      rw [← Int.cast_le (R := ℚ)]
      push_cast
      constructor <;> intro hlt <;> linarith
    have hhi : (c : ℚ) * 2 ≤ ((4 * (m / den) + extraBits (m % den) den : ℕ) : ℚ) ↔
        c * 2 ≤ 4 * ((m / den : ℕ) : ℤ) + extraBits (m % den) den := by
      rw [← Int.cast_le (R := ℚ)]
      push_cast
      rfl
    rw [hlo, hhi]
    omega

theorem shifted_shiftRight (m a b : ℕ) : shifted m a >>> b = shifted m (a + b) := by
  induction b with
  | zero => rfl
  | succ b ih => exact congrArg ExtendedMantissa.shiftRightOne ih

theorem extended_pos {m : ℕ} (hm : 0 < m) (den : ℕ) :
    0 < 4 * (m / den) + extraBits (m % den) den := by
  rcases Nat.eq_zero_or_pos (m / den) with hzero | hpos
  · have hmod : m % den ≠ 0 := by
      have hdiv := Nat.div_add_mod m den
      rw [hzero] at hdiv
      omega
    unfold extraBits
    split_ifs <;> omega
  · omega

section

variable {m den : ℕ} {e : ℤ} (hm : 0 < m) (he : e ≤ -1074 ∨ 2 ^ 52 ≤ m / den)

include hm he

/-- The two bits do not change the exponent at which 53 bits are left. -/
theorem target_extended : target (4 * (m / den) + extraBits (m % den) den) (e - 2) =
    target (m / den) e ∧ e ≤ target (m / den) e := by
  have hbits := extraBits_lt (m % den) den
  have hext := extended_pos hm den
  generalize m / den = q at *
  generalize extraBits (m % den) den = t at *
  unfold target
  rcases Nat.eq_zero_or_pos q with rfl | hq
  · have hlog : (4 * 0 + t).log2 ≤ 1 := by
      have := (Nat.log2_lt (k := 2) hext.ne').mpr (by omega)
      omega
    rw [Nat.log2_zero]
    omega
  · have hlog : (4 * q + t).log2 = q.log2 + 2 := by
      rw [Nat.log2_eq_iff hext.ne']
      have hlo : 2 ^ q.log2 ≤ q := Nat.log2_self_le hq.ne'
      have hhi : q < 2 ^ (q.log2 + 1) := Nat.lt_log2_self
      constructor
      · rw [pow_add]
        omega
      · rw [show q.log2 + 2 + 1 = q.log2 + 1 + 2 by omega, pow_add _ _ 2]
        omega
    have hfull : 2 ^ 52 ≤ q → 52 ≤ q.log2 := (Nat.le_log2 hq.ne').mpr
    rw [hlog]
    push_cast
    omega

/-- A quotient of mantissas with enough bits is rounded to the nearest. -/
theorem exists_roundWithAccuracy_quotient (hden : 0 < den) (s : Sign) :
    Canonical (roundWithAccuracy .binary64 s (m / den) e (accuracyOfFraction (m % den) den)) ∧
      ∃ r, Nearest (m / den * 2 ^ e) r ∧
        exact (roundWithAccuracy .binary64 s (m / den) e (accuracyOfFraction (m % den) den)) =
          .ofRat (signed s r) := by
  obtain ⟨htarget, hle⟩ := target_extended hm he
  have hround : roundWithAccuracy .binary64 s (m / den) e (accuracyOfFraction (m % den) den) =
      roundWithAccuracy .binary64 s (4 * (m / den) + extraBits (m % den) den) (e - 2) .exact := by
    have hshift : shiftToTargetExponent .binary64 (m / den) e
        (accuracyOfFraction (m % den) den) = shiftToTargetExponent .binary64
          (4 * (m / den) + extraBits (m % den) den) (e - 2) .exact := by
      rw [shiftToTargetExponent_eq, htarget]
      show (ExtendedMantissa.ofMantissaAndAccuracy _ _ >>> (target (m / den) e - e).toNat,
        e + ((target (m / den) e - e).toNat : ℤ)) = _
      rw [ofMantissaAndAccuracy_eq, shifted_shiftRight,
        show (target (m / den) e - (e - 2)).toNat = 2 + (target (m / den) e - e).toNat by omega]
      push_cast
      congr 1
      ring
    unfold roundWithAccuracy
    rw [hshift]
  obtain ⟨hcanonical, r, hr, hexact⟩ := exists_roundWithAccuracy (extended_pos hm den)
    (show e - 2 ≤ _ by omega) s
  rw [hround]
  refine ⟨hcanonical, r, hr.of_sameSide (sameSide_quotient m hden e) (by positivity)
    (by positivity) (he.imp_right fun hfull => ?_), hexact⟩
  have hfullq : (2 : ℚ) ^ 52 ≤ (m / den : ℕ) := by exact_mod_cast hfull
  have hpos : (0 : ℚ) < 2 ^ e := zpow_pos two_pos e
  have hquarter : (2 : ℚ) ^ e = 4 * 2 ^ (e - 2) := by
    rw [zpow_sub₀ two_ne_zero]
    norm_num
    ring
  calc (2 : ℚ) ^ 52 * 2 ^ e ≤ (m / den : ℕ) * 2 ^ e := mul_le_mul_of_nonneg_right hfullq hpos.le
    _ = ((4 * (m / den) : ℕ) : ℚ) * 2 ^ (e - 2) := by
        rw [hquarter]
        push_cast
        ring
    _ ≤ _ := mul_le_mul_of_nonneg_right (by exact_mod_cast Nat.le_add_right _ _)
        (zpow_nonneg two_pos.le _)

end

/-- The first mantissa is shifted until the quotient has enough bits. -/
theorem exists_divCore {m n : ℕ} (hm : 0 < m) (hn : 0 < n) (e f : ℤ) : ∃ M t,
    divCore .binary64 m e n f = (M / n, t, accuracyOfFraction (M % n) n) ∧ 0 < M ∧
      (t ≤ -1074 ∨ 2 ^ 52 ≤ M / n) ∧ (m : ℚ) * 2 ^ e / (n * 2 ^ f) = M / n * 2 ^ t := by
  let t : ℤ := min (e - f) (max (m.log2 + 1 + e - (n.log2 + 1 + f) - 53) (-1074))
  have hcore : divCore .binary64 m e n f =
      (m <<< (e - f - t).toNat / n, t, accuracyOfFraction (m <<< (e - f - t).toNat % n) n) := rfl
  rw [Nat.shiftLeft_eq] at hcore
  have hle : t ≤ e - f := min_le_left _ _
  refine ⟨_, t, hcore, Nat.mul_pos hm (Nat.two_pow_pos _), ?_, ?_⟩
  · rcases le_or_gt t (-1074) with hleast | hgt
    · exact Or.inl hleast
    · refine Or.inr ((Nat.le_div_iff_mul_le hn).mpr ?_)
      have hexp : 53 + n.log2 ≤ m.log2 + (e - f - t).toNat := by omega
      calc 2 ^ 52 * n ≤ 2 ^ 52 * 2 ^ (n.log2 + 1) :=
            Nat.mul_le_mul_left _ Nat.lt_log2_self.le
        _ = 2 ^ (53 + n.log2) := by rw [← pow_add]; congr 1; omega
        _ ≤ 2 ^ (m.log2 + (e - f - t).toNat) := Nat.pow_le_pow_right two_pos hexp
        _ ≤ m * 2 ^ (e - f - t).toNat := by
            rw [pow_add]
            exact Nat.mul_le_mul_right _ (Nat.log2_self_le hm.ne')
  · have hshift : (2 : ℚ) ^ e = 2 ^ (e - f - t).toNat * 2 ^ t * 2 ^ f := by
      rw [← zpow_natCast, ← zpow_add₀ two_ne_zero, ← zpow_add₀ two_ne_zero]
      congr 1
      omega
    have hf : (2 : ℚ) ^ f ≠ 0 := zpow_ne_zero f two_ne_zero
    have hn : (n : ℚ) ≠ 0 := by exact_mod_cast hn.ne'
    rw [hshift]
    push_cast
    field_simp

/-! ## Quotients of doubles -/

theorem signed_div_signed (s t : Sign) (q r : ℚ) :
    signed (s / t) (q / r) = signed s q / signed t r := by
  cases s <;> cases t
  · exact (neg_div_neg_eq q r).symm
  · exact (neg_div r q).symm
  · exact (div_neg q).symm
  · rfl

/-- An infinity divided by a number that is not zero is the infinity of the signs' quotient. -/
theorem infinity_div (s t : Sign) {q : ℚ} (h : 0 < q) :
    exact (.infinity (s / t)) = exact (.infinity s) / .ofRat (signed t q) := by
  cases s <;> cases t
  · exact (if_pos (neg_neg_of_pos h)).symm
  · exact (if_neg h.not_gt).symm
  · exact (if_pos (neg_neg_of_pos h)).symm
  · exact (if_neg h.not_gt).symm

theorem rounded_div (x y : Float) (hy : value y ≠ .ofRat 0) :
    Rounded (value x / value y) (x / y) := by
  have hx := canonical x
  replace hy : exact y.toModel.unpack ≠ .ofRat 0 := hy
  show Rounded (exact x.toModel.unpack / exact y.toModel.unpack)
    (.ofModel (.pack (.div .binary64 x.toModel.unpack y.toModel.unpack)))
  generalize x.toModel.unpack = u at *
  generalize y.toModel.unpack = v at *
  have hpos : ∀ {m : ℕ} {e : ℤ}, 0 < m → (0 : ℚ) < m * 2 ^ e := fun hm => by positivity
  cases v with
  | notANumber =>
    cases u with
    | infinity s => cases s <;> exact rounded_pack ⟨trivial, rfl⟩ rfl
    | _ => exact rounded_pack ⟨trivial, rfl⟩ rfl
  | infinity t =>
    cases u with
    | notANumber => cases t <;> exact rounded_pack ⟨trivial, rfl⟩ rfl
    | infinity s => cases s <;> cases t <;> exact rounded_pack ⟨trivial, rfl⟩ rfl
    | zero s => cases t <;> exact rounded_pack ⟨trivial, rfl⟩ rfl
    | finite s m e hm => cases t <;> exact rounded_pack ⟨trivial, rfl⟩ rfl
  | zero t => exact absurd rfl hy
  | finite t n f hn =>
    have hne : signed t (n * 2 ^ f) ≠ 0 := fun hzero => hy (congrArg Exact.ofRat hzero)
    cases u with
    | notANumber => exact rounded_pack ⟨trivial, rfl⟩ rfl
    | infinity s => exact rounded_pack ⟨trivial, rfl⟩ (infinity_div s t (hpos hn))
    | zero s =>
      refine rounded_pack ⟨trivial, rfl⟩ ?_
      show Exact.ofRat 0 = Exact.ofRat 0 / Exact.ofRat _
      rw [Exact.ofRat_div _ hne, zero_div]
    | finite s m e hm =>
      obtain ⟨M, k, hcore, hM, hfull, hvalue⟩ := exists_divCore hm hn e f
      obtain ⟨hcanonical, r, hr, hexact⟩ := exists_roundWithAccuracy_quotient hM hfull hn (s / t)
      show Rounded (Exact.ofRat _ / Exact.ofRat _)
        (.ofModel (.pack (let (m, e, acc) := divCore .binary64 m e n f
          roundWithAccuracy .binary64 (s / t) m e acc)))
      rw [Exact.ofRat_div _ hne, ← signed_div_signed, hvalue, hcore]
      exact rounded_pack_of_nearest hcanonical (hr.signed (s / t)) hexact

end BranchBound.Double
