import BranchBound.Proofs.Double.Value

/-!
# Whole doubles

Integers of 53 bits are doubles (`value_ofInt`), and from `wholeFrom` on every double is whole
(`whole_of_le`). So rounding a double to a whole number is exact: `floor` and `ceil` are those of
its value (`value_floor`, `value_ceil`), and a whole number is nearest to itself (`value_round`).
With that doubles are lawful.
-/

namespace BranchBound.Double

open Float.Model Float.Model.UnpackedFloat

/-! ## Constants -/

theorem value_zero : value 0.0 = .ofRat 0 := rfl

theorem value_one : value 1.0 = .ofRat 1 := by
  show Exact.ofRat (signed .positive ((2 ^ 52 : ℕ) * 2 ^ (-52 : ℤ))) = _
  congr 1
  norm_num [signed]

theorem value_posInf : value Scalar.inf = .posInf := rfl

theorem value_negInf : value (-Scalar.inf) = .negInf := rfl

theorem value_half : value 0.5 = .ofRat (1 / 2) := by
  show Exact.ofRat (signed .positive ((2 ^ 52 : ℕ) * 2 ^ (-53 : ℤ))) = _
  congr 1
  norm_num [signed]

theorem value_wholeFrom : value wholeFrom = .ofRat (2 ^ 52) := by
  show Exact.ofRat (signed .positive ((2 ^ 52 : ℕ) * 2 ^ (0 : ℤ))) = _
  congr 1
  norm_num [signed]

/-! ## Integers -/

/-- A natural number is converted like an integer without an exponent, by the machine or not. -/
theorem ofNat_eq (n : ℕ) :
    ofNat n = .ofModel (.pack (UnpackedFloat.normalize .binary64 n 0 .positive)) := by
  unfold ofNat
  split
  · rename_i h
    show Float.ofModel
      (.pack (UnpackedFloat.normalize .binary64 ((UInt64.ofNat n).toNat : ℤ) 0 .positive)) = _
    rw [UInt64.toNat_ofNat_of_lt' h]
  · rfl

theorem faithful_ofNat (n : ℕ) : Faithful value (.ofRat n) (ofNat n) := by
  have h := (rounded_normalize n 0 .positive).toFaithful
  rw [zpow_zero, mul_one, Int.cast_natCast] at h
  rw [ofNat_eq]
  exact h

theorem faithful_neg {q : ℚ} {x : Float} (h : Faithful value (.ofRat q) x) :
    Faithful value (.ofRat (-q)) (-x) := by
  refine ⟨?_, ?_, ?_⟩
  · rw [value_neg]
    have hnan := h.nan_iff
    cases hx : value x <;> simp_all
  · intro c hc
    rw [← Exact.neg_ofRat] at hc
    have hle := h.ge_of_ge (-c)
    rw [value_neg] at hle ⊢
    exact Exact.neg_le_comm (hle (Exact.neg_le_comm hc))
  · intro c hc
    rw [← Exact.neg_ofRat] at hc
    have hge := h.le_of_le (-c)
    rw [value_neg] at hge ⊢
    exact Exact.le_neg_comm (hge (Exact.le_neg_comm hc))

theorem faithful_ofInt (n : ℤ) : Faithful value (.ofRat n) (ofInt n) := by
  cases n with
  | ofNat n => exact faithful_ofNat n
  | negSucc n =>
    have h := faithful_neg (faithful_ofNat (n + 1))
    rw [Int.cast_negSucc]
    exact h

theorem fits_natural {n : ℕ} (h : n < 2 ^ 53) : Fits n := by
  refine ⟨n, 0, ?_, by norm_num, by simp⟩
  rw [Nat.abs_cast]
  exact_mod_cast h

/-- Natural numbers of 53 bits are doubles. -/
theorem value_ofNat {n : ℕ} (h : n < 2 ^ 53) : value (ofNat n) = .ofRat n := by
  have hrounded := rounded_normalize n 0 .positive
  rw [zpow_zero, mul_one, Int.cast_natCast, ← ofNat_eq] at hrounded
  have hlt : (n : ℚ) < 2 ^ 53 := by exact_mod_cast h
  refine hrounded.value_eq_of_fits (fits_natural h) ?_
  rw [Nat.abs_cast]
  exact hlt.trans (pow_lt_pow_right₀ one_lt_two (by norm_num))

theorem value_ofInt {n : ℤ} (h : |n| < 2 ^ 53) : value (ofInt n) = .ofRat n := by
  cases n with
  | ofNat n =>
    rw [Int.ofNat_eq_natCast, Nat.abs_cast] at h
    exact value_ofNat (by omega)
  | negSucc n =>
    have hn := value_ofNat (n := n + 1) (by have := (abs_lt.mp h).1; omega)
    show value (-ofNat (n + 1)) = _
    rw [value_neg, hn, Int.cast_negSucc]
    rfl

/-! ## Whole parts -/

/-- From here on every double is whole. -/
theorem whole_of_le {x : Float} {q : ℚ} (h : value x = .ofRat q) (hq : 2 ^ 52 ≤ |q|) :
    ∃ n : ℤ, q = n := by
  have hx := (canonical x).1
  replace h : exact x.toModel.unpack = .ofRat q := h
  generalize x.toModel.unpack = u at *
  cases u with
  | notANumber => cases h
  | infinity s => cases s <;> cases h
  | zero s =>
    obtain rfl := Exact.ofRat.inj h
    norm_num at hq
  | finite s m e hm =>
    obtain rfl := Exact.ofRat.inj h
    have habs : |signed s ((m : ℚ) * 2 ^ e)| = m * 2 ^ e := by
      have hnonneg : (0 : ℚ) ≤ m * 2 ^ e := by positivity
      cases s with
      | positive => exact abs_of_nonneg hnonneg
      | negative => exact (abs_neg _).trans (abs_of_nonneg hnonneg)
    rw [habs] at hq
    have he : 0 ≤ e := by
      by_contra hneg
      have hm53 : (m : ℚ) < 2 ^ 53 := by exact_mod_cast hx.lt
      have hexp : (2 : ℚ) ^ e ≤ 2 ^ (-1 : ℤ) := zpow_le_zpow_right₀ one_le_two (by omega)
      have hlt : (m : ℚ) * 2 ^ e < 2 ^ 53 * 2 ^ (-1 : ℤ) :=
        mul_lt_mul hm53 hexp (zpow_pos two_pos e) (by norm_num)
      norm_num at hlt hq
      linarith
    lift e to ℕ using he
    refine ⟨s.apply (m * 2 ^ e : ℕ), ?_⟩
    rw [signed_apply]
    push_cast
    rfl

theorem abs_lt_wholeFrom_iff {x : Float} {q : ℚ} (h : value x = .ofRat q) :
    x.abs < wholeFrom ↔ |q| < 2 ^ 52 := by
  rw [lt_iff, value_abs, h, value_wholeFrom, Exact.abs_ofRat, Exact.ofRat_lt]

/-- A double that is no rational is not below `wholeFrom`. -/
theorem not_abs_lt_wholeFrom {x : Float} (h : ∀ q, value x ≠ .ofRat q) : ¬x.abs < wholeFrom := by
  rw [lt_iff, value_abs, value_wholeFrom]
  cases hx : value x with
  | ofRat q => exact absurd hx (h q)
  | posInf | negInf => exact Exact.not_posInf_lt _
  | nan => exact Exact.not_nan_lt _

/-- A mantissa is rounded toward zero by dropping the bits behind the point. -/
theorem roundToInt_positive (m : ℕ) (e : ℤ) :
    roundToInt .positive m e = ⌊(m : ℚ) * 2 ^ e⌋ := by
  have heq : roundToInt .positive m e =
      (m * 2 ^ (e - 0).toNat / 2 ^ (0 - (e - (e - 0).toNat)).toNat : ℕ) := by
    rw [← Nat.shiftLeft_eq, ← mantissa_shifted]
    rfl
  rw [heq, sub_zero]
  rcases le_or_gt 0 e with h | h
  · lift e to ℕ using h
    have hfloor : ⌊((m * 2 ^ e : ℕ) : ℚ)⌋ = (m * 2 ^ e : ℕ) := Int.floor_natCast _
    push_cast at hfloor
    rw [zpow_natCast, hfloor]
    simp
  · obtain ⟨k, rfl⟩ : ∃ k : ℕ, e = -k := ⟨(-e).toNat, by omega⟩
    have hfloor : ⌊(m : ℚ) / (2 ^ k : ℕ)⌋ = (m : ℤ) / (2 ^ k : ℕ) :=
      Rat.floor_intCast_div_natCast m (2 ^ k)
    push_cast at hfloor
    rw [zpow_neg, zpow_natCast, ← div_eq_mul_inv, hfloor]
    simp

/-- The whole part of a double that is not negative, before it is moved into a range. -/
theorem toInt_unpack {x : Float} {q : ℚ} (h : value x = .ofRat q) (h0 : 0 ≤ q) (low high : ℤ) :
    x.toModel.unpack.toInt low high = ⌊q⌋ := by
  replace h : exact x.toModel.unpack = .ofRat q := h
  cases hu : x.toModel.unpack with
  | notANumber =>
    rw [hu] at h
    cases h
  | infinity s =>
    rw [hu] at h
    cases s <;> cases h
  | zero s =>
    rw [hu] at h
    obtain rfl := Exact.ofRat.inj h
    exact Int.floor_zero.symm
  | finite s m e hm =>
    rw [hu] at h
    obtain rfl := Exact.ofRat.inj h
    have hpos : (0 : ℚ) < m * 2 ^ e := by positivity
    cases s with
    | positive => exact roundToInt_positive m e
    | negative =>
      replace h0 : 0 ≤ -((m : ℚ) * 2 ^ e) := h0
      linarith

/-- The whole part goes to the greatest machine integer if it is above that. -/
theorem toNat_ofNatClamp (n : ℕ) : (UInt64.ofNatClamp n).toNat = min n (2 ^ 64 - 1) := by
  unfold UInt64.ofNatClamp
  split
  · rename_i h
    have hlt : n < 2 ^ 64 := h
    show n = _
    omega
  · rename_i h
    have hge : ¬n < 2 ^ 64 := h
    show 2 ^ 64 - 1 = _
    omega

theorem toUInt64_eq_min {x : Float} {q : ℚ} (h : value x = .ofRat q) (h0 : 0 ≤ q) :
    (x.toUInt64.toNat : ℤ) = min ⌊q⌋ (2 ^ 64 - 1) := by
  have hfloor : 0 ≤ ⌊q⌋ := Int.floor_nonneg.mpr h0
  show ((UInt64.ofNatClamp (x.toModel.unpack.toInt 0 (UInt64.size - 1)).toNat).toNat : ℤ) = _
  rw [toInt_unpack h h0, toNat_ofNatClamp]
  omega

theorem toUInt64_eq {x : Float} {q : ℚ} (h : value x = .ofRat q) (h0 : 0 ≤ q) (h64 : q < 2 ^ 64) :
    (x.toUInt64.toNat : ℤ) = ⌊q⌋ := by
  have hlt : ⌊q⌋ < 2 ^ 64 := by
    rw [Int.floor_lt]
    exact_mod_cast h64
  rw [toUInt64_eq_min h h0]
  omega

/-- Within 64 bits the whole part is that of the value. -/
theorem truncate_eq {x : Float} {q : ℚ} (h : value x = .ofRat q) (hq : |q| < 2 ^ 64) :
    truncate x = Exact.truncate q := by
  have habs : value x.abs = .ofRat |q| := by rw [value_abs, h, Exact.abs_ofRat]
  have hneg : x < 0.0 ↔ q < 0 := by rw [lt_iff, h, value_zero, Exact.ofRat_lt]
  unfold truncate
  rw [Exact.truncate_eq, toUInt64_eq habs (abs_nonneg q) hq]
  simp only [hneg]
  split
  · rename_i hlt
    rw [abs_of_neg hlt, Int.floor_neg, neg_neg]
  · rename_i hge
    rw [abs_of_nonneg (not_lt.mp hge)]

/-! ## Rounding to whole numbers -/

theorem floor_of_truncate (q : ℚ) :
    (if q < Exact.truncate q then Exact.truncate q - 1 else Exact.truncate q) = ⌊q⌋ := by
  rw [eq_comm, Int.floor_eq_iff, Exact.truncate_eq]
  have hle := Int.le_ceil q
  have hlt := Int.ceil_lt_add_one q
  split
  · split <;> push_cast <;> constructor <;> linarith
  · rw [if_neg (not_lt.mpr (Int.floor_le q))]
    exact ⟨Int.floor_le q, Int.lt_floor_add_one q⟩

theorem ceil_of_truncate (q : ℚ) :
    (if Exact.truncate q < q then Exact.truncate q + 1 else Exact.truncate q) = ⌈q⌉ := by
  rw [eq_comm, Int.ceil_eq_iff, Exact.truncate_eq]
  have hle := Int.floor_le q
  have hlt := Int.lt_floor_add_one q
  split
  · rw [if_neg (not_lt.mpr (Int.le_ceil q))]
    exact ⟨by linarith [Int.ceil_lt_add_one q], Int.le_ceil q⟩
  · split <;> push_cast <;> constructor <;> linarith

/-- The whole neighbours of a number below `wholeFrom` are not above it. -/
theorem whole_bounds {q : ℚ} (h : |q| < 2 ^ 52) :
    |⌊q⌋| < 2 ^ 53 ∧ |⌈q⌉| < 2 ^ 53 ∧ |Exact.truncate q| < 2 ^ 53 := by
  obtain ⟨hlo, hhi⟩ := abs_lt.mp h
  have hfloor : -2 ^ 52 ≤ ⌊q⌋ := Int.le_floor.mpr (by push_cast; exact hlo.le)
  have hceil : ⌈q⌉ ≤ 2 ^ 52 := Int.ceil_le.mpr (by push_cast; exact hhi.le)
  have hle := Int.floor_le_ceil q
  rw [Exact.truncate_eq]
  refine ⟨abs_lt.mpr (by omega), abs_lt.mpr (by omega), abs_lt.mpr ?_⟩
  split <;> omega

section

variable {x : Float} {q : ℚ} (h : value x = .ofRat q)

include h

theorem truncate_eq_of_lt (hq : |q| < 2 ^ 52) : truncate x = Exact.truncate q :=
  truncate_eq h (hq.trans (by norm_num))

/-- Below `wholeFrom` the whole part is a double. -/
theorem value_ofInt_truncate (hq : |q| < 2 ^ 52) :
    value (ofInt (truncate x)) = .ofRat (Exact.truncate q) := by
  rw [truncate_eq_of_lt h hq]
  exact value_ofInt (whole_bounds hq).2.2

theorem floor_eq (hq : |q| < 2 ^ 52) : floor x = ofInt ⌊q⌋ := by
  have hlt : x < ofInt (truncate x) ↔ q < Exact.truncate q := by
    rw [lt_iff, h, value_ofInt_truncate h hq, Exact.ofRat_lt]
  unfold floor
  rw [if_pos ((abs_lt_wholeFrom_iff h).mpr hq)]
  simp only [hlt]
  rw [truncate_eq_of_lt h hq, floor_of_truncate]

theorem ceil_eq (hq : |q| < 2 ^ 52) : ceil x = ofInt ⌈q⌉ := by
  have hlt : ofInt (truncate x) < x ↔ Exact.truncate q < q := by
    rw [lt_iff, h, value_ofInt_truncate h hq, Exact.ofRat_lt]
  unfold ceil
  rw [if_pos ((abs_lt_wholeFrom_iff h).mpr hq)]
  simp only [hlt]
  rw [truncate_eq_of_lt h hq, ceil_of_truncate]

end

theorem value_floor (x : Float) : value (floor x) = Scalar.floor (value x) := by
  by_cases hx : ∃ q, value x = .ofRat q
  · obtain ⟨q, h⟩ := hx
    rcases lt_or_ge |q| (2 ^ 52) with hq | hq
    · rw [floor_eq h hq, value_ofInt (whole_bounds hq).1, h, Exact.floor_ofRat]
    · -- a whole number stays as it is
      obtain ⟨n, rfl⟩ := whole_of_le h hq
      unfold floor
      rw [if_neg (mt (abs_lt_wholeFrom_iff h).mp hq.not_gt), h, Exact.floor_ofRat,
        Int.floor_intCast]
  · have hx : ∀ q, value x ≠ .ofRat q := fun q h => hx ⟨q, h⟩
    unfold floor
    rw [if_neg (not_abs_lt_wholeFrom hx)]
    cases h : value x with
    | ofRat q => exact absurd h (hx q)
    | _ => rfl

theorem value_ceil (x : Float) : value (ceil x) = Scalar.ceil (value x) := by
  by_cases hx : ∃ q, value x = .ofRat q
  · obtain ⟨q, h⟩ := hx
    rcases lt_or_ge |q| (2 ^ 52) with hq | hq
    · rw [ceil_eq h hq, value_ofInt (whole_bounds hq).2.1, h, Exact.ceil_ofRat]
    · obtain ⟨n, rfl⟩ := whole_of_le h hq
      unfold ceil
      rw [if_neg (mt (abs_lt_wholeFrom_iff h).mp hq.not_gt), h, Exact.ceil_ofRat,
        Int.ceil_intCast]
  · have hx : ∀ q, value x ≠ .ofRat q := fun q h => hx ⟨q, h⟩
    unfold ceil
    rw [if_neg (not_abs_lt_wholeFrom hx)]
    cases h : value x with
    | ofRat q => exact absurd h (hx q)
    | _ => rfl

/-- A whole number is nearest to itself: its difference to its whole part is zero. -/
theorem value_round {x : Float} {n : ℤ} (h : value x = .ofRat n) :
    value (round x) = .ofRat n := by
  unfold round
  split
  · rename_i hlt
    have hq := (abs_lt_wholeFrom_iff h).mp hlt
    have htruncate : truncate x = n := by
      rw [truncate_eq_of_lt h hq, Exact.truncate_intCast]
    have hn : value (ofInt n) = .ofRat n := by
      have hvalue := value_ofInt_truncate h hq
      rwa [htruncate, Exact.truncate_intCast] at hvalue
    have hd : value (x - ofInt n) = .ofRat 0 := by
      have hfaithful := (rounded_sub x (ofInt n)).toFaithful
      rw [h, hn, Exact.ofRat_sub, sub_self] at hfaithful
      exact hfaithful.value_eq value_zero (nomatch ·)
    have hup : ¬0.5 ≤ x - ofInt n := by
      rw [le_iff, hd, value_half, Exact.ofRat_le]
      norm_num
    have hdown : ¬x - ofInt n ≤ -0.5 := by
      rw [le_iff, hd, value_neg, value_half, Exact.neg_ofRat, Exact.ofRat_le]
      norm_num
    rw [htruncate]
    simp only [hup, hdown, if_false]
    exact hn
  · exact h

/-! ## Machine integers -/

/-- A whole double of 53 bits is within the range of machine integers. -/
theorem toInt_ofInt {n : ℤ} (h : |n| < 2 ^ 53) : toInt (ofInt n) = n := by
  have hn := value_ofInt h
  have hq : |(n : ℚ)| < 2 ^ 64 := by
    have : (|n| : ℤ) < 2 ^ 64 := h.trans (by norm_num)
    exact_mod_cast this
  obtain ⟨hlo, hhi⟩ := abs_lt.mp h
  unfold toInt
  rw [truncate_eq hn hq, Exact.truncate_intCast]
  show max (-2 ^ 63) (min (2 ^ 63 - 1) n) = n
  omega

/-- A number that is not whole is below `wholeFrom`. -/
theorem abs_lt_of_not_whole {x : Float} {q : ℚ} (h : value x = .ofRat q) (hq : ∀ n : ℤ, q ≠ n) :
    |q| < 2 ^ 52 := by
  by_contra hge
  obtain ⟨n, hn⟩ := whole_of_le h (not_lt.mp hge)
  exact hq n hn

end BranchBound.Double

namespace BranchBound

/-- Doubles are lawful numbers. -/
instance : Lawful Float where
  value := Double.value
  lt_iff := Double.lt_iff
  le_iff := Double.le_iff
  isNaN_eq := Double.isNaN_eq
  isFinite_eq := Double.isFinite_eq
  value_zero := Double.value_zero
  value_abs := Double.value_abs
  faithful_add x y := (Double.rounded_add x y).toFaithful
  faithful_sub x y := (Double.rounded_sub x y).toFaithful
  faithful_mul x y := (Double.rounded_mul x y).toFaithful
  faithful_ofInt := Double.faithful_ofInt
  value_floor := Double.value_floor
  value_ceil := Double.value_ceil
  value_round _ _ := Double.value_round
  toInt_floor x q h hq := by
    have hlt := Double.abs_lt_of_not_whole h hq
    show Double.toInt (Double.floor x) = _
    rw [Double.floor_eq h hlt, Double.toInt_ofInt (Double.whole_bounds hlt).1]
  toInt_ceil x q h hq := by
    have hlt := Double.abs_lt_of_not_whole h hq
    show Double.toInt (Double.ceil x) = _
    rw [Double.ceil_eq h hlt, Double.toInt_ofInt (Double.whole_bounds hlt).2.1]

end BranchBound
