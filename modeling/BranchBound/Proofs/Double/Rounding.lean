import BranchBound.Proofs.Double.Packing
import BranchBound.Scalar.Exact
import Mathlib.Algebra.Order.Field.Power
import Mathlib.Algebra.Order.Field.Rat
import Mathlib.Tactic.FieldSimp
import Mathlib.Tactic.Ring

/-!
# Rounding to doubles

Rounding never crosses a double: a number of at most 53 bits that is not below what is rounded is
not below the result, and the other way round (`Rounds`). That is most of what is needed of rounding,
and it holds whichever way halves go. How far off a rounded result is, and that rounding keeps the
order, needs more: the result is a nearest number of 53 bits, and the one with the even mantissa of
two (`Nearest`).

A mantissa is rounded in two shifts. The first one takes it to the exponent at which 53 bits are
left, and rounds there (`rounds_rounded`, `nearest_rounded`); the second one is only needed when
that gives a power of two with one bit more (`exists_roundWithAccuracy`).
-/

namespace BranchBound.Double

open Float.Model Float.Model.UnpackedFloat

/-! ## Shifting -/

/-- A mantissa shifted right, with what is left of the bits that were shifted out. -/
def shifted (m n : ℕ) : ExtendedMantissa :=
  ExtendedMantissa.ofMantissaAndAccuracy m .exact >>> n

theorem mantissa_shifted (m n : ℕ) : (shifted m n).mantissa = m / 2 ^ n := by
  induction n with
  | zero =>
    show m = _
    rw [pow_zero, Nat.div_one]
  | succ n ih =>
    show (shifted m n).mantissa / 2 = _
    rw [ih, Nat.div_div_eq_div_mul, pow_succ]

/-- The residual bits are clear as long as nothing was shifted out. -/
theorem residue_shifted (m n : ℕ) :
    (shifted m n).roundBit = false ∧ (shifted m n).stickyBit = false ↔ 2 ^ n ∣ m := by
  induction n with
  | zero =>
    show false = false ∧ false = false ↔ _
    simp
  | succ n ih =>
    show ((shifted m n).mantissa % 2 != 0) = false ∧
      ((shifted m n).roundBit || (shifted m n).stickyBit) = false ↔ _
    rw [Bool.or_eq_false_iff, ih, mantissa_shifted, bne_eq_false_iff_eq,
      ← Nat.dvd_iff_mod_eq_zero, pow_succ]
    constructor
    · rintro ⟨htwo, hdvd⟩
      exact (Nat.dvd_div_iff_mul_dvd hdvd).mp htwo
    · intro h
      have hdvd : 2 ^ n ∣ m := dvd_trans (dvd_mul_right _ _) h
      exact ⟨(Nat.dvd_div_iff_mul_dvd hdvd).mpr h, hdvd⟩

/-- Rounding goes up by one at most, and only if something was shifted out. -/
theorem roundedMantissa_bounds (em : ExtendedMantissa) :
    em.mantissa ≤ em.roundedMantissa ∧ em.roundedMantissa ≤ em.mantissa + 1 ∧
      (em.roundBit = false ∧ em.stickyBit = false → em.roundedMantissa = em.mantissa) := by
  obtain ⟨m, roundBit, stickyBit⟩ := em
  unfold ExtendedMantissa.roundedMantissa
  cases roundBit <;> cases stickyBit <;>
    simp [ExtendedMantissa.accuracy, Accuracy.roundToNearestEven]
  omega

/-- The rounded mantissa lies between the same multiples of the unit as the mantissa. -/
theorem rounded_shifted (m n : ℕ) :
    (∀ k, k * 2 ^ n ≤ m → k ≤ (shifted m n).roundedMantissa) ∧
      ∀ k, m ≤ k * 2 ^ n → (shifted m n).roundedMantissa ≤ k := by
  obtain ⟨hlo, hhi, hexact⟩ := roundedMantissa_bounds (shifted m n)
  rw [residue_shifted, mantissa_shifted] at hexact
  rw [mantissa_shifted] at hlo hhi
  have hpos : 0 < 2 ^ n := Nat.two_pow_pos n
  constructor
  · intro k hk
    exact ((Nat.le_div_iff_mul_le hpos).mpr hk).trans hlo
  · intro k hk
    by_cases hdvd : 2 ^ n ∣ m
    · rw [hexact hdvd]
      exact Nat.div_le_of_le_mul (by rw [mul_comm]; exact hk)
    · -- what is no multiple of the unit stays below the next one
      have hlt : m < k * 2 ^ n :=
        lt_of_le_of_ne hk fun h => hdvd (h ▸ dvd_mul_left (2 ^ n) k)
      exact hhi.trans ((Nat.div_lt_iff_lt_mul hpos).mpr hlt)

/-- One more shift takes off the lowest bit that was left, and puts the bits below it together. -/
theorem shifted_succ (m n : ℕ) : shifted m (n + 1) =
    { mantissa := m / 2 ^ n / 2, roundBit := m / 2 ^ n % 2 != 0, stickyBit := m % 2 ^ n != 0 } := by
  have hsticky : ((shifted m n).roundBit || (shifted m n).stickyBit) = (m % 2 ^ n != 0) := by
    rw [Bool.eq_iff_iff, ← not_iff_not, Bool.not_eq_true, Bool.not_eq_true, Bool.or_eq_false_iff,
      residue_shifted, bne_eq_false_iff_eq, Nat.dvd_iff_mod_eq_zero]
  rw [← hsticky, ← mantissa_shifted m n]
  rfl

/-- Rounding goes to a nearest mantissa, and to the even one of two. -/
theorem roundedMantissa_nearest {half bit rest : ℕ} {unit : ℤ} (hbit : bit < 2)
    (hrest : rest < unit) {r : ℕ} (hr : r = ExtendedMantissa.roundedMantissa
      { mantissa := half, roundBit := bit != 0, stickyBit := rest != 0 }) :
    2 * |r * (2 * unit) - (half * (2 * unit) + bit * unit + rest)| ≤ 2 * unit ∧
      (2 * |r * (2 * unit) - (half * (2 * unit) + bit * unit + rest)| = 2 * unit → Even r) := by
  obtain rfl | rfl : bit = 0 ∨ bit = 1 := by omega
  · have hdown : r = half := by
      rw [hr]
      cases rest <;> rfl
    have hdiff : (r : ℤ) * (2 * unit) - (half * (2 * unit) + (0 : ℕ) * unit + rest) = -rest := by
      rw [hdown]
      push_cast
      ring
    rw [hdiff, abs_neg, Nat.abs_cast]
    omega
  · by_cases hzero : rest = 0
    · -- halfway between two mantissas
      have htie : r = half + half % 2 := by
        rw [hr, hzero]
        rfl
      have hdiff : |(r : ℤ) * (2 * unit) - (half * (2 * unit) + (1 : ℕ) * unit + rest)| =
          unit := by
        rw [hzero] at hrest ⊢
        rw [htie]
        rcases Nat.mod_two_eq_zero_or_one half with heven | hodd
        · rw [heven, abs_of_nonpos (by push_cast; linarith)]
          push_cast
          ring
        · rw [hodd, abs_of_nonneg (by push_cast; linarith)]
          push_cast
          ring
      rw [hdiff]
      refine ⟨le_rfl, fun _ => Nat.even_iff.mpr ?_⟩
      omega
    · have hup : r = half + 1 := by
        obtain ⟨k, rfl⟩ := Nat.exists_eq_succ_of_ne_zero hzero
        exact hr
      have hdiff : |(r : ℤ) * (2 * unit) - (half * (2 * unit) + (1 : ℕ) * unit + rest)| =
          unit - rest := by
        rw [hup, abs_of_nonneg (by push_cast; linarith)]
        push_cast
        ring
      rw [hdiff]
      omega

/-- The rounded mantissa is a nearest multiple of the unit, and the even one of two. -/
theorem nearest_shifted (m n : ℕ) :
    2 * |((shifted m n).roundedMantissa : ℤ) * 2 ^ n - m| ≤ 2 ^ n ∧
      (2 * |((shifted m n).roundedMantissa : ℤ) * 2 ^ n - m| = 2 ^ n →
        Even (shifted m n).roundedMantissa) := by
  cases n with
  | zero =>
    have hsame : (shifted m 0).roundedMantissa = m := rfl
    rw [hsame]
    simp
  | succ n =>
    have hrest : ((m % 2 ^ n : ℕ) : ℤ) < 2 ^ n := by
      exact_mod_cast Nat.mod_lt m (Nat.two_pow_pos n)
    have hm : (m : ℤ) = (m / 2 ^ n / 2 : ℕ) * (2 * 2 ^ n) + (m / 2 ^ n % 2 : ℕ) * 2 ^ n +
        (m % 2 ^ n : ℕ) := by
      have hdiv : 2 ^ n * (m / 2 ^ n) + m % 2 ^ n = m := Nat.div_add_mod m (2 ^ n)
      have hhalf : 2 * (m / 2 ^ n / 2) + m / 2 ^ n % 2 = m / 2 ^ n := Nat.div_add_mod _ 2
      generalize m / 2 ^ n / 2 = half at *
      generalize m / 2 ^ n % 2 = bit at *
      generalize m % 2 ^ n = rest at *
      rw [← hhalf] at hdiv
      zify at hdiv
      linarith
    rw [shifted_succ, pow_succ', hm]
    exact roundedMantissa_nearest (Nat.mod_lt _ two_pos) hrest rfl

/-! ## Numbers of 53 bits -/

/-- A rational of at most 53 bits, with an exponent that is not too small for a double. -/
def Fits (q : ℚ) : Prop := ∃ k f : ℤ, |k| < 2 ^ 53 ∧ -1074 ≤ f ∧ q = k * 2 ^ f

/-- Whether a rational lies on the same side of every number of 53 bits as another one. -/
def Rounds (q r : ℚ) : Prop := ∀ c, Fits c → (q ≤ c → r ≤ c) ∧ (c ≤ q → c ≤ r)

theorem Fits.neg {c : ℚ} (h : Fits c) : Fits (-c) := by
  obtain ⟨k, f, hk, hf, rfl⟩ := h
  exact ⟨-k, f, by rwa [abs_neg], hf, by push_cast; ring⟩

theorem Rounds.neg {q r : ℚ} (h : Rounds q r) : Rounds (-q) (-r) := by
  intro c hc
  obtain ⟨hle, hge⟩ := h (-c) hc.neg
  constructor
  · intro hq
    linarith [hge (by linarith)]
  · intro hq
    linarith [hle (by linarith)]

/-- A number of 53 bits is its own rounding. -/
theorem Rounds.eq_of_fits {q r : ℚ} (h : Rounds q r) (hq : Fits q) : r = q :=
  le_antisymm ((h q hq).1 le_rfl) ((h q hq).2 le_rfl)

theorem rounds_self {q : ℚ} : Rounds q q := fun _ _ => ⟨id, id⟩

/-- Whether a multiple of a power of two is a nearest one to a rational, and the even one of two.
The power is the one at which the rational has 53 bits, or the least one. -/
structure NearestAt (q : ℚ) (k t : ℤ) : Prop where
  least : -1074 ≤ t
  lt : |q| < 2 ^ 53 * 2 ^ t
  full : -1074 < t → 2 ^ 52 * 2 ^ t ≤ |q|
  near : 2 * |k * 2 ^ t - q| ≤ 2 ^ t
  even : 2 * |k * 2 ^ t - q| = 2 ^ t → Even k

theorem NearestAt.neg {q : ℚ} {k t : ℤ} (h : NearestAt q k t) : NearestAt (-q) (-k) t := by
  have hdiff : |((-k : ℤ) : ℚ) * 2 ^ t - -q| = |k * 2 ^ t - q| := by
    rw [← abs_neg]
    push_cast
    ring_nf
  refine ⟨h.least, ?_, ?_, ?_, ?_⟩
  · rw [abs_neg]
    exact h.lt
  · rw [abs_neg]
    exact h.full
  · rw [hdiff]
    exact h.near
  · rw [hdiff]
    exact fun heq => (h.even heq).neg

/-- Whether a rational is rounded to the nearest number of 53 bits. -/
structure Nearest (q r : ℚ) : Prop where
  rounds : Rounds q r
  exists_at : ∃ k t, NearestAt q k t ∧ r = k * 2 ^ t

theorem Nearest.neg {q r : ℚ} (h : Nearest q r) : Nearest (-q) (-r) := by
  obtain ⟨k, t, hk, rfl⟩ := h.exists_at
  exact ⟨h.rounds.neg, -k, t, hk.neg, by push_cast; ring⟩

/-- A number whose exponent is the one at which it has 53 bits is not rounded. -/
theorem nearest_self {q : ℚ} {k t : ℤ} (ht : -1074 ≤ t) (hlt : |k| < 2 ^ 53)
    (hfull : -1074 < t → 2 ^ 52 ≤ |k|) (hq : q = k * 2 ^ t) : Nearest q q := by
  have hpos : (0 : ℚ) < 2 ^ t := zpow_pos two_pos t
  have habs : |q| = (|k| : ℤ) * 2 ^ t := by
    rw [hq, abs_mul, abs_of_pos hpos, Int.cast_abs]
  refine ⟨rounds_self, k, t, ⟨ht, ?_, fun hmin => ?_, ?_, fun heq => ?_⟩, hq⟩
  · rw [habs]
    exact mul_lt_mul_of_pos_right (by exact_mod_cast hlt) hpos
  · rw [habs]
    exact mul_le_mul_of_nonneg_right (by exact_mod_cast hfull hmin) hpos.le
  · rw [← hq, sub_self, abs_zero, mul_zero]
    exact hpos.le
  · rw [← hq, sub_self, abs_zero, mul_zero] at heq
    exact absurd heq hpos.ne

theorem nearest_zero : Nearest 0 0 :=
  nearest_self (k := 0) le_rfl (by norm_num) (fun h => absurd h (lt_irrefl _)) (by norm_num)

/-! ## The rounded mantissa -/

/-- The exponent at which a mantissa has 53 bits, if it is not too small. -/
def target (m : ℕ) (e : ℤ) : ℤ := max (m.log2 + 1 + e - 53) (-1074)

/-- The mantissa, rounded at the target exponent. -/
def rounded (m : ℕ) (e : ℤ) : ℕ := (shifted m (target m e - e).toNat).roundedMantissa

theorem rounded_le (m : ℕ) (e : ℤ) : rounded m e ≤ 2 ^ 53 := by
  refine (rounded_shifted m _).2 _ ?_
  rw [← pow_add]
  have hlt : m < 2 ^ (m.log2 + 1) := Nat.lt_log2_self
  refine (hlt.trans_le (Nat.pow_le_pow_right two_pos ?_)).le
  unfold target
  omega

/-- The unit at the target exponent, in units of the exponent of the mantissa. -/
theorem two_zpow_target {m : ℕ} {e : ℤ} (he : e ≤ target m e) :
    (2 : ℚ) ^ target m e = 2 ^ (target m e - e).toNat * 2 ^ e := by
  rw [← zpow_natCast, ← zpow_add₀ two_ne_zero]
  congr 1
  omega

section

variable {m : ℕ} {e : ℤ} (hm : 0 < m) (he : e ≤ target m e)

include hm he

/-- Above the least exponent all bits are used. -/
theorem full_of_target (hmin : -1074 < target m e) : 2 ^ 52 * 2 ^ (target m e - e).toNat ≤ m := by
  rw [← pow_add]
  refine (Nat.pow_le_pow_right two_pos ?_).trans (Nat.log2_self_le hm.ne')
  unfold target at *
  omega

theorem le_rounded (hmin : -1074 < target m e) : 2 ^ 52 ≤ rounded m e :=
  (rounded_shifted m _).1 _ (full_of_target hm he hmin)

/-- Rounding a mantissa crosses no number of 53 bits. -/
theorem rounds_rounded :
    Rounds (m * 2 ^ e) (rounded m e * 2 ^ target m e) := by
  obtain ⟨hlo, hhi⟩ := rounded_shifted m (target m e - e).toNat
  have hr : (shifted m (target m e - e).toNat).roundedMantissa = rounded m e := rfl
  rw [hr] at hlo hhi
  have hfull := full_of_target hm he
  have hr52 := le_rounded hm he
  have hunit := two_zpow_target he
  generalize target m e = t at *
  generalize rounded m e = r at *
  -- everything is measured in units of the exponent of the mantissa
  generalize (t - e).toNat = n at *
  have hpos : (0 : ℚ) < 2 ^ e := zpow_pos two_pos e
  have hpost : (0 : ℚ) < 2 ^ t := zpow_pos two_pos t
  rintro c ⟨k, f, hk, hf, rfl⟩
  rcases le_or_gt t f with htf | hft
  · obtain ⟨K, hK⟩ : ∃ K : ℤ, (k : ℚ) * 2 ^ f = K * 2 ^ t := by
      refine ⟨k * 2 ^ (f - t).toNat, ?_⟩
      push_cast
      rw [mul_assoc, ← zpow_natCast, ← zpow_add₀ two_ne_zero]
      congr 2
      omega
    rw [hK]
    constructor
    · intro h
      rw [hunit, ← mul_assoc, mul_le_mul_iff_of_pos_right hpos] at h
      have hint : (m : ℤ) ≤ K * 2 ^ n := by exact_mod_cast h
      have hK0 : 0 ≤ K := by
        by_contra hneg
        have : K * 2 ^ n < 0 := mul_neg_of_neg_of_pos (by omega) (by positivity)
        omega
      lift K to ℕ using hK0
      have hrK : r ≤ K := hhi K (by exact_mod_cast hint)
      exact mul_le_mul_of_nonneg_right (by exact_mod_cast hrK) hpost.le
    · intro h
      rw [hunit, ← mul_assoc, mul_le_mul_iff_of_pos_right hpos] at h
      have hint : K * 2 ^ n ≤ (m : ℤ) := by exact_mod_cast h
      have hKr : K ≤ r := by
        rcases le_or_gt 0 K with hK0 | hneg
        · lift K to ℕ using hK0
          exact_mod_cast hlo K (by exact_mod_cast hint)
        · omega
      exact mul_le_mul_of_nonneg_right (by exact_mod_cast hKr) hpost.le
  -- all numbers of 53 bits below the exponent are below what has all bits
  · have hbelow : (k : ℚ) * 2 ^ f < 2 ^ 52 * 2 ^ t := by
      have hkq : (k : ℚ) < 2 ^ 53 := by exact_mod_cast (abs_lt.mp hk).2
      have hf' : (2 : ℚ) ^ f ≤ 2 ^ (t - 1) := zpow_le_zpow_right₀ one_le_two (by omega)
      calc (k : ℚ) * 2 ^ f < 2 ^ 53 * 2 ^ f :=
            mul_lt_mul_of_pos_right hkq (zpow_pos two_pos f)
        _ ≤ 2 ^ 53 * 2 ^ (t - 1) := mul_le_mul_of_nonneg_left hf' (by positivity)
        _ = 2 ^ 52 * 2 ^ t := by
            rw [zpow_sub_one₀ two_ne_zero]
            ring
    have hm52 : (2 : ℚ) ^ 52 * 2 ^ t ≤ m * 2 ^ e := by
      have hfullq : (2 : ℚ) ^ 52 * 2 ^ n ≤ m := by exact_mod_cast hfull (by omega)
      rw [hunit, ← mul_assoc]
      exact mul_le_mul_of_nonneg_right hfullq hpos.le
    have hr52q : (2 : ℚ) ^ 52 * 2 ^ t ≤ r * 2 ^ t :=
      mul_le_mul_of_nonneg_right (by exact_mod_cast hr52 (by omega)) hpost.le
    constructor
    · intro h
      exact absurd (hbelow.trans_le hm52) h.not_gt
    · intro _
      exact (hbelow.trans_le hr52q).le

/-- A mantissa is rounded to the nearest. -/
theorem nearest_rounded : Nearest (m * 2 ^ e) (rounded m e * 2 ^ target m e) := by
  refine ⟨rounds_rounded hm he, rounded m e, target m e, ?_, by push_cast; rfl⟩
  have hleast : -1074 ≤ target m e := le_max_right _ _
  have hlog : m.log2 + 1 ≤ 53 + (target m e - e).toNat := by
    unfold target
    omega
  have hfull := full_of_target hm he
  obtain ⟨hnear, heven⟩ := nearest_shifted m (target m e - e).toNat
  have hr : (shifted m (target m e - e).toNat).roundedMantissa = rounded m e := rfl
  rw [hr] at hnear heven
  have hunit := two_zpow_target he
  generalize target m e = t at *
  generalize rounded m e = r at *
  generalize (t - e).toNat = n at *
  have hpos : (0 : ℚ) < 2 ^ e := zpow_pos two_pos e
  have habs : |(m : ℚ) * 2 ^ e| = m * 2 ^ e := abs_of_nonneg (by positivity)
  -- everything is measured in units of the exponent of the mantissa
  have hdiff : 2 * |((r : ℤ) : ℚ) * 2 ^ t - m * 2 ^ e| =
      ((2 * |(r : ℤ) * 2 ^ n - m| : ℤ) : ℚ) * 2 ^ e := by
    rw [hunit]
    push_cast
    rw [← mul_assoc, ← sub_mul, abs_mul, abs_of_pos hpos, mul_assoc]
  refine ⟨hleast, ?_, fun hmin => ?_, ?_, fun heq => ?_⟩
  · have hlt : m < 2 ^ 53 * 2 ^ n := by
      rw [← pow_add]
      exact Nat.lt_log2_self.trans_le (Nat.pow_le_pow_right two_pos hlog)
    rw [habs, hunit, ← mul_assoc]
    exact mul_lt_mul_of_pos_right (by exact_mod_cast hlt) hpos
  · rw [habs, hunit, ← mul_assoc]
    exact mul_le_mul_of_nonneg_right (by exact_mod_cast hfull hmin) hpos.le
  · rw [hdiff, hunit]
    exact mul_le_mul_of_nonneg_right (by exact_mod_cast hnear) hpos.le
  · rw [hdiff, hunit] at heq
    have hint := mul_right_cancel₀ hpos.ne' heq
    exact (Int.even_coe_nat r).mpr (heven (by exact_mod_cast hint))

end

/-! ## Rounding a number taken apart -/

/-- A rational with a sign. -/
def signed : Sign → ℚ → ℚ
  | .negative, q => -q
  | .positive, q => q

/-- The exact value of a number taken apart. -/
def exact : UnpackedFloat → Exact
  | .notANumber => .nan
  | .infinity .positive => .posInf
  | .infinity .negative => .negInf
  | .zero _ => .ofRat 0
  | .finite s m e _ => .ofRat (signed s (m * 2 ^ e))

theorem shiftToTargetExponent_eq (m : ℕ) (e : ℤ) :
    shiftToTargetExponent .binary64 m e .exact =
      (shifted m (target m e - e).toNat, e + (target m e - e).toNat) := rfl

/-- The second shift takes back the bit that rounding may have added. -/
theorem second_shift {r : ℕ} {t : ℤ} (hr : r ≤ 2 ^ 53) (ht : -1074 ≤ t)
    (hfull : -1074 < t → 2 ^ 52 ≤ r) : ∃ m e, m = r / 2 ^ (target r t - t).toNat ∧
      e = t + (target r t - t).toNat ∧ (m : ℚ) * 2 ^ e = r * 2 ^ t ∧ Normal m e := by
  refine ⟨_, _, rfl, rfl, ?_⟩
  rcases hr.lt_or_eq with hlt | rfl
  · have hstay : (target r t - t).toNat = 0 := by
      have hlog : r = 0 ∨ r.log2 < 53 := by
        by_cases h : r = 0
        · exact Or.inl h
        · exact Or.inr ((Nat.log2_lt h).mpr hlt)
      unfold target
      rcases hlog with rfl | hlog
      · rw [Nat.log2_zero]
        omega
      · omega
    rw [hstay]
    simpa using ⟨hlt, ht, hfull⟩
  · have hone : (target (2 ^ 53) t - t).toNat = 1 := by
      unfold target
      rw [Nat.log2_two_pow]
      omega
    rw [hone]
    refine ⟨?_, by norm_num, by omega, by norm_num⟩
    rw [zpow_add₀ two_ne_zero]
    norm_num
    ring

/-- A mantissa is rounded to something canonical, which is the nearest number of 53 bits. -/
theorem exists_roundWithAccuracy {m : ℕ} {e : ℤ} (hm : 0 < m) (he : e ≤ target m e) (s : Sign) :
    Canonical (roundWithAccuracy .binary64 s m e .exact) ∧ ∃ r, Nearest (m * 2 ^ e) r ∧
      exact (roundWithAccuracy .binary64 s m e .exact) = .ofRat (signed s r) := by
  have hmin : -1074 ≤ target m e := le_max_right _ _
  obtain ⟨m', e', hm', he', hvalue, hnormal⟩ :=
    second_shift (rounded_le m e) hmin (le_rounded hm he)
  have htarget : e + (target m e - e).toNat = target m e := by omega
  have heq : roundWithAccuracy .binary64 s m e .exact =
      if h : m' = 0 then .zero s else .finite s m' e' (Nat.pos_of_ne_zero h) := by
    subst hm' he'
    unfold roundWithAccuracy
    rw [shiftToTargetExponent_eq]
    dsimp only
    rw [shiftToTargetExponent_eq, htarget]
    simp only [mantissa_shifted]
    rfl
  rw [heq]
  split
  · rename_i hzero
    refine ⟨trivial, _, nearest_rounded hm he, ?_⟩
    rw [← hvalue, hzero]
    cases s <;> simp [exact, signed]
  · refine ⟨hnormal, _, nearest_rounded hm he, ?_⟩
    rw [← hvalue]
    rfl

/-- A mantissa that is too short is filled up before it is rounded. -/
theorem exists_round {m : ℕ} (hm : 0 < m) (e : ℤ) (s : Sign) :
    Canonical (UnpackedFloat.round .binary64 s m e) ∧ ∃ r, Nearest (m * 2 ^ e) r ∧
      exact (UnpackedFloat.round .binary64 s m e) = .ofRat (signed s r) := by
  let k := (e - target m e).toNat
  have hround : UnpackedFloat.round .binary64 s m e =
      roundWithAccuracy .binary64 s (m * 2 ^ k) (e - k) .exact := by
    rw [← Nat.shiftLeft_eq]
    rfl
  have htarget : target (m * 2 ^ k) (e - k) = target m e := by
    have hlog : (m * 2 ^ k).log2 = m.log2 + k := by
      rw [Nat.log2_eq_iff (Nat.mul_pos hm (Nat.two_pow_pos k)).ne', pow_succ, pow_add]
      have hlo : 2 ^ m.log2 ≤ m := Nat.log2_self_le hm.ne'
      have hhi : m < 2 ^ (m.log2 + 1) := Nat.lt_log2_self
      constructor
      · exact Nat.mul_le_mul_right _ hlo
      · rw [pow_succ] at hhi
        rw [mul_right_comm]
        exact Nat.mul_lt_mul_of_pos_right hhi (Nat.two_pow_pos k)
    unfold target
    rw [hlog]
    push_cast
    congr 1
    ring
  have hvalue : ((m * 2 ^ k : ℕ) : ℚ) * 2 ^ (e - k) = m * 2 ^ e := by
    push_cast
    rw [mul_assoc, ← zpow_natCast, ← zpow_add₀ two_ne_zero]
    congr 2
    ring
  rw [hround, ← hvalue]
  refine exists_roundWithAccuracy (Nat.mul_pos hm (Nat.two_pow_pos k)) ?_ s
  rw [htarget]
  omega

/-- A whole multiple of a power of two is rounded. -/
theorem exists_normalize (m e : ℤ) (s : Sign) :
    Canonical (UnpackedFloat.normalize .binary64 m e s) ∧ ∃ r, Nearest (m * 2 ^ e) r ∧
      exact (UnpackedFloat.normalize .binary64 m e s) = .ofRat r := by
  unfold UnpackedFloat.normalize
  rcases lt_trichotomy m 0 with hneg | rfl | hpos
  · rw [compare_lt_iff_lt.mpr hneg]
    obtain ⟨hcanonical, r, hr, hexact⟩ := exists_round (m := (-m).toNat) (by omega) e .negative
    refine ⟨hcanonical, -r, ?_, hexact⟩
    have hm : (((-m).toNat : ℤ) : ℚ) = -m := by
      rw [Int.toNat_of_nonneg (by omega)]
      push_cast
      rfl
    rw [Int.cast_natCast] at hm
    have hneg := hr.neg
    rw [hm] at hneg
    simpa using hneg
  · exact ⟨trivial, 0, by simpa using nearest_zero, rfl⟩
  · rw [compare_gt_iff_gt.mpr hpos]
    obtain ⟨hcanonical, r, hr, hexact⟩ := exists_round (m := m.toNat) (by omega) e .positive
    refine ⟨hcanonical, r, ?_, hexact⟩
    have hm : ((m.toNat : ℤ) : ℚ) = m := by rw [Int.toNat_of_nonneg hpos.le]
    rw [Int.cast_natCast] at hm
    rw [← hm]
    exact hr

/-! ## The range of doubles -/

/-- The first power of two beyond the range of doubles. -/
def limit : ℚ := 2 ^ 1024

theorem limit_pos : 0 < limit := pow_pos two_pos 1024

/-- What the range of doubles makes of a rational. -/
def overflow (r : ℚ) : Exact :=
  if limit ≤ r then .posInf else if r ≤ -limit then .negInf else .ofRat r

theorem overflow_of_lt {r : ℚ} (hlo : -limit < r) (hhi : r < limit) : overflow r = .ofRat r := by
  unfold overflow
  rw [if_neg hhi.not_ge, if_neg hlo.not_ge]

theorem overflow_of_le {r : ℚ} (h : limit ≤ r) : overflow r = .posInf := if_pos h

theorem overflow_of_ge {r : ℚ} (h : r ≤ -limit) : overflow r = .negInf := by
  have hpos := limit_pos
  unfold overflow
  rw [if_neg (by linarith), if_pos h]

/-- What is canonical is in the range of doubles if its exponent is. -/
theorem Normal.lt_limit_iff {m : ℕ} {e : ℤ} (h : Normal m e) :
    (m : ℚ) * 2 ^ e < limit ↔ e ≤ 971 := by
  have hpos : (0 : ℚ) < 2 ^ e := zpow_pos two_pos e
  have hlimit : ∀ a b : ℕ, a + b = 1024 → (2 : ℚ) ^ a * 2 ^ (b : ℤ) = limit := by
    intro a b hab
    rw [zpow_natCast, ← pow_add, hab]
    rfl
  constructor
  · intro hlt
    by_contra he
    have hfull : (2 : ℚ) ^ 52 ≤ m := by exact_mod_cast h.full (by omega)
    have hexp : (2 : ℚ) ^ ((972 : ℕ) : ℤ) ≤ 2 ^ e := zpow_le_zpow_right₀ one_le_two (by omega)
    have hle : (2 : ℚ) ^ 52 * 2 ^ ((972 : ℕ) : ℤ) ≤ m * 2 ^ e :=
      mul_le_mul hfull hexp (zpow_nonneg two_pos.le _) (Nat.cast_nonneg m)
    rw [hlimit 52 972 rfl] at hle
    exact absurd hlt hle.not_gt
  · intro he
    have hm : (m : ℚ) < 2 ^ 53 := by exact_mod_cast h.lt
    have hexp : (2 : ℚ) ^ e ≤ 2 ^ ((971 : ℕ) : ℤ) := zpow_le_zpow_right₀ one_le_two he
    calc (m : ℚ) * 2 ^ e < 2 ^ 53 * 2 ^ e := mul_lt_mul_of_pos_right hm hpos
      _ ≤ 2 ^ 53 * 2 ^ ((971 : ℕ) : ℤ) := mul_le_mul_of_nonneg_left hexp (by positivity)
      _ = limit := hlimit 53 971 rfl

/-- Clipping what is canonical is an overflow of its value. -/
theorem exact_clip {u : UnpackedFloat} (h : Canonical u) {r : ℚ} (hr : exact u = .ofRat r) :
    exact (clip u) = overflow r := by
  have hlimit := limit_pos
  cases u with
  | notANumber => cases hr
  | infinity s => cases s <;> cases hr
  | zero s =>
    obtain rfl := Exact.ofRat.inj hr
    rw [overflow_of_lt (by linarith) hlimit]
    rfl
  | finite s m e hm =>
    obtain rfl := Exact.ofRat.inj hr
    have hnonneg : (0 : ℚ) ≤ m * 2 ^ e := by positivity
    by_cases he : e ≤ 971
    · have hlt := h.lt_limit_iff.mpr he
      rw [clip_finite he]
      cases s with
      | positive => exact (overflow_of_lt (by show _ < (m : ℚ) * 2 ^ e; linarith) hlt).symm
      | negative =>
        exact (overflow_of_lt (by show _ < -((m : ℚ) * 2 ^ e); linarith)
          (by show -((m : ℚ) * 2 ^ e) < _; linarith)).symm
    · have hge : limit ≤ (m : ℚ) * 2 ^ e := by
        rw [← not_lt, h.lt_limit_iff]
        exact he
      rw [clip_infinite he]
      cases s with
      | positive => exact (overflow_of_le hge).symm
      | negative => exact (overflow_of_ge (by show -((m : ℚ) * 2 ^ e) ≤ _; linarith)).symm

end BranchBound.Double
