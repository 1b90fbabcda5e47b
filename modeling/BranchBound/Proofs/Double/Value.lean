import BranchBound.Proofs.Double.Rounding
import BranchBound.Proofs.Lawful
import BranchBound.Scalar.Double

/-!
# The values of doubles

Every double has an exact value (`value`), doubles compare as their values do (`lt_iff`, `le_iff`),
and adding, subtracting and multiplying them rounds the exact result (`rounded_add`, `rounded_sub`,
`rounded_mul`): to the nearest number of 53 bits, and what is beyond the range of doubles is
infinite. So it is faithful.
-/

namespace BranchBound.Double

open Float.Model Float.Model.UnpackedFloat

/-! ## Values -/

/-- The exact value of a double. -/
def value (x : Float) : Exact := exact x.toModel.unpack

theorem canonical (x : Float) :
    Canonical x.toModel.unpack ∧ clip x.toModel.unpack = x.toModel.unpack :=
  canonical_unpack _

/-- A double made of parts has their value, within the range of doubles. -/
theorem value_pack {u : UnpackedFloat} (h : Canonical u) :
    value (.ofModel (.pack u)) = exact (clip u) :=
  congrArg exact (unpack_pack h)

theorem fits_signed {q : ℚ} (h : Fits q) (s : Sign) : Fits (signed s q) := by
  cases s with
  | positive => exact h
  | negative => exact h.neg

theorem fits_of_exact {u : UnpackedFloat} (hu : Canonical u) {q : ℚ} (h : exact u = .ofRat q) :
    Fits q := by
  cases u with
  | notANumber => cases h
  | infinity s => cases s <;> cases h
  | zero s =>
    obtain rfl := Exact.ofRat.inj h
    exact ⟨0, 0, by norm_num, by norm_num, by norm_num⟩
  | finite s m e hm =>
    obtain rfl := Exact.ofRat.inj h
    refine fits_signed ⟨m, e, ?_, hu.le, by push_cast; rfl⟩ s
    rw [Nat.abs_cast]
    exact_mod_cast hu.lt

/-- A rational value of a double has 53 bits and is in the range of doubles. -/
theorem fits_of_value {x : Float} {q : ℚ} (h : value x = .ofRat q) :
    Fits q ∧ -limit < q ∧ q < limit := by
  obtain ⟨hcanonical, hclip⟩ := canonical x
  refine ⟨fits_of_exact hcanonical h, ?_⟩
  have hrange : overflow q = .ofRat q := by
    rw [← exact_clip hcanonical h, hclip]
    exact h
  constructor
  · by_contra hlo
    rw [overflow_of_ge (not_lt.mp hlo)] at hrange
    cases hrange
  · by_contra hhi
    rw [overflow_of_le (not_lt.mp hhi)] at hrange
    cases hrange

/-! ## Faithful results -/

/-- A rounded rational that overflows beyond the range of doubles is faithful. -/
theorem faithful_of_rounds {q r : ℚ} {x : Float} (h : Rounds q r) (hx : value x = overflow r) :
    Faithful value (.ofRat q) x := by
  have hlimit := limit_pos
  -- the three ways in which a rational is brought into the range of doubles
  have hcases : (limit ≤ r ∧ value x = .posInf) ∨ (r ≤ -limit ∧ value x = .negInf) ∨
      value x = .ofRat r := by
    rw [hx]
    by_cases hhi : limit ≤ r
    · exact Or.inl ⟨hhi, overflow_of_le hhi⟩
    · by_cases hlo : r ≤ -limit
      · exact Or.inr (Or.inl ⟨hlo, overflow_of_ge hlo⟩)
      · exact Or.inr (Or.inr (overflow_of_lt (not_le.mp hlo) (not_le.mp hhi)))
  refine ⟨?_, ?_, ?_⟩
  · rcases hcases with ⟨-, hv⟩ | ⟨-, hv⟩ | hv <;> simp [hv]
  · intro c hc
    cases hvc : value c with
    | nan | negInf =>
      rw [hvc] at hc
      simp at hc
    | posInf => rcases hcases with ⟨-, hv⟩ | ⟨-, hv⟩ | hv <;> simp [hv]
    | ofRat p =>
      rw [hvc, Exact.ofRat_le] at hc
      obtain ⟨hfits, hlo, hhi⟩ := fits_of_value hvc
      have hle := (h p hfits).1 hc
      rcases hcases with ⟨hr, hv⟩ | ⟨-, hv⟩ | hv
      · linarith
      · simp [hv]
      · simpa [hv] using hle
  · intro c hc
    cases hvc : value c with
    | nan | posInf =>
      rw [hvc] at hc
      simp at hc
    | negInf => rcases hcases with ⟨-, hv⟩ | ⟨-, hv⟩ | hv <;> simp [hv]
    | ofRat p =>
      rw [hvc, Exact.ofRat_le] at hc
      obtain ⟨hfits, hlo, hhi⟩ := fits_of_value hvc
      have hle := (h p hfits).2 hc
      rcases hcases with ⟨-, hv⟩ | ⟨hr, hv⟩ | hv
      · simp [hv]
      · linarith
      · simpa [hv] using hle

/-- Whether a double is the rounding of an exact result. -/
structure Rounded (x : Exact) (r : Float) : Prop extends Faithful value x r where
  nearest : ∀ q, x = .ofRat q → ∃ s, Nearest q s ∧ value r = overflow s

theorem Nearest.signed {q r : ℚ} (h : Nearest q r) (s : Sign) :
    Nearest (Double.signed s q) (Double.signed s r) := by
  cases s with
  | positive => exact h
  | negative => exact h.neg

/-- A rational value in the range of doubles is not rounded. -/
theorem nearest_of_exact {u : UnpackedFloat} (hu : Canonical u) {q : ℚ} (h : exact u = .ofRat q) :
    Nearest q q := by
  cases u with
  | notANumber => cases h
  | infinity s => cases s <;> cases h
  | zero s =>
    obtain rfl := Exact.ofRat.inj h
    exact nearest_zero
  | finite s m e hm =>
    obtain rfl := Exact.ofRat.inj h
    refine Nearest.signed (nearest_self (k := m) hu.le ?_ (fun hmin => ?_) (by push_cast; rfl)) s
    · rw [Nat.abs_cast]
      exact_mod_cast hu.lt
    · rw [Nat.abs_cast]
      exact_mod_cast hu.full hmin

/-- A rational rounded to the nearest that overflows beyond the range of doubles is rounded. -/
theorem rounded_of_nearest {q r : ℚ} {x : Float} (h : Nearest q r) (hx : value x = overflow r) :
    Rounded (.ofRat q) x where
  toFaithful := faithful_of_rounds h.rounds hx
  nearest p hp := by
    obtain rfl := Exact.ofRat.inj hp
    exact ⟨r, h, hx⟩

/-- What is canonical in the range of doubles is packed without a change. -/
theorem rounded_pack {u : UnpackedFloat} {x : Exact} (h : Canonical u ∧ clip u = u)
    (hx : exact u = x) : Rounded x (.ofModel (.pack u)) where
  toFaithful := .of_value_eq (by rw [value_pack h.1, h.2, hx])
  nearest q hq := by
    rw [hq] at hx
    exact ⟨q, nearest_of_exact h.1 hx, by rw [value_pack h.1, exact_clip h.1 hx]⟩

/-- A rounded number is packed without a further change. -/
theorem rounded_pack_of_nearest {u : UnpackedFloat} {q r : ℚ} (hu : Canonical u)
    (hr : Nearest q r) (hexact : exact u = .ofRat r) :
    Rounded (.ofRat q) (.ofModel (.pack u)) :=
  rounded_of_nearest hr (by rw [value_pack hu, exact_clip hu hexact])

theorem rounded_normalize (m e : ℤ) (s : Sign) :
    Rounded (.ofRat (m * 2 ^ e)) (.ofModel (.pack (UnpackedFloat.normalize .binary64 m e s))) := by
  obtain ⟨hcanonical, r, hr, hexact⟩ := exists_normalize m e s
  exact rounded_pack_of_nearest hcanonical hr hexact

/-- What has 53 bits and is in the range of doubles is not rounded. -/
theorem Rounded.value_eq_of_fits {q : ℚ} {x : Float} (h : Rounded (.ofRat q) x) (hq : Fits q)
    (hlt : |q| < limit) : value x = .ofRat q := by
  obtain ⟨r, hr, hx⟩ := h.nearest q rfl
  obtain ⟨hlo, hhi⟩ := abs_lt.mp hlt
  rw [hx, hr.rounds.eq_of_fits hq, overflow_of_lt hlo hhi]

/-! ## Order -/

/-- A greater exponent makes for a greater number. -/
theorem lt_of_exponent_lt {m n : ℕ} {e f : ℤ} (hm : Normal m e) (hn : Normal n f) (h : e < f) :
    (m : ℚ) * 2 ^ e < n * 2 ^ f := by
  have hm53 : (m : ℚ) < 2 ^ 53 := by exact_mod_cast hm.lt
  have hn52 : (2 : ℚ) ^ 52 ≤ n := by exact_mod_cast hn.full (by have := hm.le; omega)
  have hexp : (2 : ℚ) ^ e ≤ 2 ^ (f - 1) := zpow_le_zpow_right₀ one_le_two (by omega)
  calc (m : ℚ) * 2 ^ e < 2 ^ 53 * 2 ^ e := mul_lt_mul_of_pos_right hm53 (zpow_pos two_pos e)
    _ ≤ 2 ^ 53 * 2 ^ (f - 1) := mul_le_mul_of_nonneg_left hexp (by positivity)
    _ = 2 ^ 52 * 2 ^ f := by
        rw [zpow_sub_one₀ two_ne_zero]
        ring
    _ ≤ n * 2 ^ f := mul_le_mul_of_nonneg_right hn52 (zpow_nonneg two_pos.le f)

/-- Canonical numbers are compared by their exponents first. -/
theorem compare_normal {m n : ℕ} {e f : ℤ} (hm : Normal m e) (hn : Normal n f) :
    (compare e f).then (compare m n) = compare ((m : ℚ) * 2 ^ e) (n * 2 ^ f) := by
  rcases lt_trichotomy e f with h | rfl | h
  · rw [compare_lt_iff_lt.mpr h, compare_lt_iff_lt.mpr (lt_of_exponent_lt hm hn h)]
    rfl
  · have hpos : (0 : ℚ) < 2 ^ e := zpow_pos two_pos e
    rw [compare_eq_iff_eq.mpr rfl]
    show compare m n = _
    rcases lt_trichotomy m n with h | rfl | h
    · rw [compare_lt_iff_lt.mpr h, compare_lt_iff_lt.mpr]
      exact mul_lt_mul_of_pos_right (by exact_mod_cast h) hpos
    · rw [compare_eq_iff_eq.mpr rfl, compare_eq_iff_eq.mpr rfl]
    · rw [compare_gt_iff_gt.mpr h, compare_gt_iff_gt.mpr]
      exact mul_lt_mul_of_pos_right (by exact_mod_cast h) hpos
  · rw [compare_gt_iff_gt.mpr h, compare_gt_iff_gt.mpr (lt_of_exponent_lt hn hm h)]
    rfl

/-- The order of two exact numbers, if both are valid. -/
def order : Exact → Exact → Option Ordering
  | .nan, _ => none
  | _, .nan => none
  | .posInf, .posInf => some .eq
  | .negInf, .negInf => some .eq
  | .posInf, _ => some .gt
  | _, .posInf => some .lt
  | .negInf, _ => some .lt
  | _, .negInf => some .gt
  | .ofRat p, .ofRat q => some (compare p q)

theorem order_eq_lt_iff {a b : Exact} : (order a b == some .lt) = true ↔ a < b := by
  cases a <;> cases b <;> simp [order, compare_lt_iff_lt]

theorem order_isLE_iff {a b : Exact} : (order a b).any (·.isLE) = true ↔ a ≤ b := by
  cases a <;> cases b <;> simp [order, ← compare_le_iff_le, Ordering.isLE_iff_ne_gt]

theorem order_eq_eq_iff {a b : Exact} : (order a b == some .eq) = true ↔ a = b ∧ a ≠ .nan := by
  cases a <;> cases b <;> simp [order]

theorem compare_neg_neg {p q : ℚ} : compare (-p) (-q) = (compare p q).swap := by
  rcases lt_trichotomy p q with h | rfl | h
  · rw [compare_lt_iff_lt.mpr h, compare_gt_iff_gt.mpr (neg_lt_neg h)]
    rfl
  · rw [compare_eq_iff_eq.mpr rfl, compare_eq_iff_eq.mpr rfl]
    rfl
  · rw [compare_gt_iff_gt.mpr h, compare_lt_iff_lt.mpr (neg_lt_neg h)]
    rfl

/-- Canonical numbers are compared as their values are. -/
theorem compare_eq_order {u v : UnpackedFloat} (hu : Canonical u) (hv : Canonical v) :
    u.compare v = order (exact u) (exact v) := by
  have hpos : ∀ {m : ℕ} {e : ℤ}, 0 < m → (0 : ℚ) < m * 2 ^ e := fun hm => by positivity
  cases u with
  | notANumber => cases v <;> rfl
  | infinity s =>
    cases v with
    | notANumber => cases s <;> rfl
    | infinity t => cases s <;> cases t <;> rfl
    | zero t => cases s <;> rfl
    | finite t n f hn => cases s <;> cases t <;> rfl
  | zero s =>
    cases v with
    | notANumber => rfl
    | infinity t => cases t <;> rfl
    | zero t =>
      show some Ordering.eq = some (compare (0 : ℚ) 0)
      rw [compare_eq_iff_eq.mpr rfl]
    | finite t n f hn =>
      have hn := hpos (e := f) hn
      cases t with
      | positive =>
        show some Ordering.lt = some (compare (0 : ℚ) (n * 2 ^ f))
        rw [compare_lt_iff_lt.mpr hn]
      | negative =>
        show some Ordering.gt = some (compare (0 : ℚ) (-(n * 2 ^ f)))
        rw [compare_gt_iff_gt.mpr (neg_neg_of_pos hn)]
  | finite s m e hm =>
    have hm := hpos (e := e) hm
    cases v with
    | notANumber => cases s <;> rfl
    | infinity t => cases s <;> cases t <;> rfl
    | zero t =>
      cases s with
      | positive =>
        show some Ordering.gt = some (compare ((m : ℚ) * 2 ^ e) 0)
        rw [compare_gt_iff_gt.mpr hm]
      | negative =>
        show some Ordering.lt = some (compare (-((m : ℚ) * 2 ^ e)) 0)
        rw [compare_lt_iff_lt.mpr (neg_neg_of_pos hm)]
    | finite t n f hn =>
      have hn := hpos (e := f) hn
      have hcompare := compare_normal hu hv
      cases s with
      | positive =>
        cases t with
        | positive => exact congrArg some hcompare
        | negative =>
          show some Ordering.gt = some (compare ((m : ℚ) * 2 ^ e) (-(n * 2 ^ f)))
          rw [compare_gt_iff_gt.mpr (by linarith)]
      | negative =>
        cases t with
        | positive =>
          show some Ordering.lt = some (compare (-((m : ℚ) * 2 ^ e)) (n * 2 ^ f))
          rw [compare_lt_iff_lt.mpr (by linarith)]
        | negative =>
          show some ((compare e f).then (compare m n)).swap =
            some (compare (-((m : ℚ) * 2 ^ e)) (-(n * 2 ^ f)))
          rw [hcompare, compare_neg_neg]

theorem lt_iff (x y : Float) : x < y ↔ value x < value y := by
  show decide (x.toModel.unpack.lt y.toModel.unpack = true) = true ↔ _
  rw [decide_eq_true_iff, UnpackedFloat.lt, compare_eq_order (canonical x).1 (canonical y).1]
  exact order_eq_lt_iff

theorem le_iff (x y : Float) : x ≤ y ↔ value x ≤ value y := by
  show decide (x.toModel.unpack.le y.toModel.unpack = true) = true ↔ _
  rw [decide_eq_true_iff, UnpackedFloat.le, compare_eq_order (canonical x).1 (canonical y).1]
  exact order_isLE_iff

theorem beq_iff (x y : Float) : (x == y) = true ↔ value x = value y ∧ value x ≠ .nan := by
  show (x.toModel.unpack.compare y.toModel.unpack == some .eq) = true ↔ _
  rw [compare_eq_order (canonical x).1 (canonical y).1]
  exact order_eq_eq_iff

theorem isNaN_eq (x : Float) : x.isNaN = Scalar.isNaN (value x) := by
  show x.toModel.unpack.isNaN = Scalar.isNaN (exact x.toModel.unpack)
  cases x.toModel.unpack with
  | infinity s => cases s <;> rfl
  | _ => rfl

theorem isNaN_eq_false_iff {x : Float} : Scalar.isNaN x = false ↔ value x ≠ .nan := by
  rw [show Scalar.isNaN x = Scalar.isNaN (value x) from isNaN_eq x, Exact.isNaN_eq_false_iff]

theorem isFinite_eq (x : Float) : x.isFinite = Scalar.isFinite (value x) := by
  show x.toModel.unpack.isFinite = Scalar.isFinite (exact x.toModel.unpack)
  cases x.toModel.unpack with
  | infinity s => cases s <;> rfl
  | _ => rfl

theorem isFinite_iff {x : Float} : Scalar.isFinite x = true ↔ ∃ q, value x = .ofRat q := by
  rw [show Scalar.isFinite x = Scalar.isFinite (value x) from isFinite_eq x, Exact.isFinite_iff]

theorem isInfinite_eq (x : Float) : Scalar.isInfinite x = Scalar.isInfinite (value x) := by
  unfold Scalar.isInfinite
  rw [← isNaN_eq, ← isFinite_eq]
  rfl

/-! ## Signs -/

/-- A number taken apart whose sign is the only difference to one in the range of doubles. -/
theorem inRange_sign {s t : Sign} {m : ℕ} {e : ℤ} {hm : 0 < m}
    (h : Canonical (.finite s m e hm) ∧ clip (.finite s m e hm) = .finite s m e hm) :
    Canonical (.finite t m e hm) ∧ clip (.finite t m e hm) = .finite t m e hm := by
  refine ⟨h.1, clip_finite ?_⟩
  by_contra he
  have hclip := h.2
  rw [clip_infinite he] at hclip
  cases hclip

theorem value_abs (x : Float) : value x.abs = Scalar.abs (value x) := by
  have hx := canonical x
  show value (.ofModel (.pack x.toModel.unpack.abs)) = Scalar.abs (exact x.toModel.unpack)
  cases hu : x.toModel.unpack with
  | notANumber => exact value_pack (u := .notANumber) trivial
  | infinity s =>
    rw [value_pack (u := .abs (.infinity s)) trivial]
    cases s <;> rfl
  | zero s =>
    rw [value_pack (u := .abs (.zero s)) trivial]
    show Exact.ofRat 0 = Scalar.abs (.ofRat 0)
    rw [Exact.abs_ofRat, abs_zero]
  | finite s m e hm =>
    rw [hu] at hx
    obtain ⟨hcanonical, hclip⟩ := inRange_sign (t := .positive) hx
    have hnonneg : (0 : ℚ) ≤ m * 2 ^ e := by positivity
    show value (.ofModel (.pack (.finite .positive m e hm))) = Scalar.abs (.ofRat _)
    rw [value_pack hcanonical, hclip, Exact.abs_ofRat]
    cases s with
    | positive =>
      show Exact.ofRat (m * 2 ^ e) = Exact.ofRat |(m : ℚ) * 2 ^ e|
      rw [abs_of_nonneg hnonneg]
    | negative =>
      show Exact.ofRat (m * 2 ^ e) = Exact.ofRat |-((m : ℚ) * 2 ^ e)|
      rw [abs_neg, abs_of_nonneg hnonneg]

theorem value_neg (x : Float) : value (-x) = -value x := by
  have hx := canonical x
  show value (.ofModel (.pack x.toModel.unpack.neg)) = -exact x.toModel.unpack
  cases hu : x.toModel.unpack with
  | notANumber => exact value_pack (u := .notANumber) trivial
  | infinity s =>
    rw [value_pack (u := .neg (.infinity s)) trivial]
    cases s <;> rfl
  | zero s =>
    rw [value_pack (u := .neg (.zero s)) trivial]
    show Exact.ofRat 0 = -Exact.ofRat 0
    rw [Exact.neg_ofRat, neg_zero]
  | finite s m e hm =>
    rw [hu] at hx
    obtain ⟨hcanonical, hclip⟩ := inRange_sign (t := -s) hx
    show value (.ofModel (.pack (.finite (-s) m e hm))) = -Exact.ofRat _
    rw [value_pack hcanonical, hclip, Exact.neg_ofRat]
    cases s with
    | positive => rfl
    | negative =>
      show Exact.ofRat (m * 2 ^ e) = Exact.ofRat (- -((m : ℚ) * 2 ^ e))
      rw [neg_neg]

/-! ## Sums and products -/

theorem signed_apply (s : Sign) (n : ℕ) : ((s.apply n : ℤ) : ℚ) = signed s n := by
  cases s with
  | positive => exact Int.cast_natCast n
  | negative =>
    show ((-(n : ℤ) : ℤ) : ℚ) = -(n : ℚ)
    push_cast
    rfl

theorem signed_neg (s : Sign) (q : ℚ) : signed (-s) q = -signed s q := by
  cases s with
  | positive => rfl
  | negative => exact (neg_neg q).symm

theorem signed_mul (s : Sign) (q r : ℚ) : signed s (q * r) = signed s q * r := by
  cases s with
  | positive => rfl
  | negative => exact (neg_mul q r).symm

/-- A mantissa that is filled up to a smaller exponent keeps its value. -/
theorem value_decreaseExponent {m : ℕ} {e f : ℤ} (h : f ≤ e) :
    ((decreaseExponent m e f).1 : ℚ) * 2 ^ f = m * 2 ^ e := by
  show ((m <<< (e - f).toNat : ℕ) : ℚ) * 2 ^ f = _
  rw [Nat.shiftLeft_eq]
  push_cast
  rw [mul_assoc, ← zpow_natCast, ← zpow_add₀ two_ne_zero]
  congr 2
  omega

theorem rounded_add (x y : Float) : Rounded (value x + value y) (x + y) := by
  have hx := canonical x
  have hy := canonical y
  show Rounded (exact x.toModel.unpack + exact y.toModel.unpack)
    (.ofModel (.pack (.add .binary64 x.toModel.unpack y.toModel.unpack)))
  generalize x.toModel.unpack = u at *
  generalize y.toModel.unpack = v at *
  cases u with
  | notANumber => cases v <;> exact rounded_pack ⟨trivial, rfl⟩ rfl
  | infinity s =>
    cases v with
    | infinity t => cases s <;> cases t <;> exact rounded_pack ⟨trivial, rfl⟩ rfl
    | _ => cases s <;> exact rounded_pack ⟨trivial, rfl⟩ rfl
  | zero s =>
    have hzero : ∀ q : ℚ, Exact.ofRat q = Exact.ofRat 0 + Exact.ofRat q := fun q => by simp
    cases v with
    | notANumber => exact rounded_pack ⟨trivial, rfl⟩ rfl
    | infinity t => cases t <;> exact rounded_pack ⟨trivial, rfl⟩ rfl
    | zero t => cases s <;> cases t <;> exact rounded_pack ⟨trivial, rfl⟩ (hzero 0)
    | finite t n f hn => exact rounded_pack hy (hzero _)
  | finite s m e hm =>
    cases v with
    | notANumber => exact rounded_pack ⟨trivial, rfl⟩ rfl
    | infinity t => cases t <;> exact rounded_pack ⟨trivial, rfl⟩ rfl
    | zero t =>
      have hzero : ∀ q : ℚ, Exact.ofRat q = Exact.ofRat q + Exact.ofRat 0 := fun q => by simp
      exact rounded_pack hx (hzero _)
    | finite t n f hn =>
      -- at the smaller exponent both are whole
      have hsum : Exact.ofRat (signed s (m * 2 ^ e)) + Exact.ofRat (signed t (n * 2 ^ f)) =
          .ofRat (((s.apply (decreaseExponent m e (min e f)).1 +
            t.apply (decreaseExponent n f (min e f)).1 : ℤ) : ℚ) * 2 ^ min e f) := by
        rw [Exact.ofRat_add, Int.cast_add, signed_apply, signed_apply, add_mul, ← signed_mul,
          ← signed_mul, value_decreaseExponent (min_le_left e f),
          value_decreaseExponent (min_le_right e f)]
      show Rounded (Exact.ofRat _ + Exact.ofRat _) _
      rw [hsum]
      exact rounded_normalize _ _ _

theorem rounded_sub (x y : Float) : Rounded (value x - value y) (x - y) := by
  have hx := canonical x
  have hy := canonical y
  show Rounded (exact x.toModel.unpack - exact y.toModel.unpack)
    (.ofModel (.pack (.sub .binary64 x.toModel.unpack y.toModel.unpack)))
  generalize x.toModel.unpack = u at *
  generalize y.toModel.unpack = v at *
  cases u with
  | notANumber => cases v <;> exact rounded_pack ⟨trivial, rfl⟩ rfl
  | infinity s =>
    cases v with
    | infinity t => cases s <;> cases t <;> exact rounded_pack ⟨trivial, rfl⟩ rfl
    | _ => cases s <;> exact rounded_pack ⟨trivial, rfl⟩ rfl
  | zero s =>
    have hzero : ∀ q : ℚ, Exact.ofRat 0 - Exact.ofRat q = Exact.ofRat (-q) := fun q => by simp
    cases v with
    | notANumber => exact rounded_pack ⟨trivial, rfl⟩ rfl
    | infinity t => cases t <;> exact rounded_pack ⟨trivial, rfl⟩ rfl
    | zero t => cases s <;> cases t <;> exact rounded_pack ⟨trivial, rfl⟩ (hzero 0).symm
    | finite t n f hn =>
      refine rounded_pack (inRange_sign hy) ?_
      show Exact.ofRat (signed (-t) _) = _
      rw [signed_neg]
      exact (hzero _).symm
  | finite s m e hm =>
    cases v with
    | notANumber => exact rounded_pack ⟨trivial, rfl⟩ rfl
    | infinity t => cases t <;> exact rounded_pack ⟨trivial, rfl⟩ rfl
    | zero t =>
      have hzero : ∀ q : ℚ, Exact.ofRat q - Exact.ofRat 0 = Exact.ofRat q := fun q => by simp
      exact rounded_pack hx (hzero _).symm
    | finite t n f hn =>
      have hdiff : Exact.ofRat (signed s (m * 2 ^ e)) - Exact.ofRat (signed t (n * 2 ^ f)) =
          .ofRat (((s.apply (decreaseExponent m e (min e f)).1 -
            t.apply (decreaseExponent n f (min e f)).1 : ℤ) : ℚ) * 2 ^ min e f) := by
        rw [Exact.ofRat_sub, Int.cast_sub, signed_apply, signed_apply, sub_mul, ← signed_mul,
          ← signed_mul, value_decreaseExponent (min_le_left e f),
          value_decreaseExponent (min_le_right e f)]
      show Rounded (Exact.ofRat _ - Exact.ofRat _) _
      rw [hdiff]
      exact rounded_normalize _ _ _

/-- The product of two mantissas has enough bits to be rounded. -/
theorem le_target_mul {m n : ℕ} {e f : ℤ} (hm : Normal m e) (hn : Normal n f) (hmpos : 0 < m)
    (hnpos : 0 < n) : e + f ≤ target (m * n) (e + f) := by
  unfold target
  by_cases h : e = -1074 ∧ f = -1074
  · omega
  · have hle : 2 ^ 52 ≤ m * n := by
      have := hm.le
      have := hn.le
      by_cases he : e = -1074
      · have hfull := hn.full (by omega)
        nlinarith
      · have hfull := hm.full (by omega)
        nlinarith
    have hlog : 52 ≤ (m * n).log2 := (Nat.le_log2 (Nat.mul_pos hmpos hnpos).ne').mpr hle
    omega

theorem signed_mul_signed (s t : Sign) (q r : ℚ) :
    signed (s * t) (q * r) = signed s q * signed t r := by
  cases s <;> cases t
  · exact (neg_mul_neg q r).symm
  · exact (neg_mul q r).symm
  · exact (mul_neg q r).symm
  · rfl

/-- An infinity times a number that is not zero is the infinity of the signs' product. -/
theorem infinity_mul (s t : Sign) {q : ℚ} (h : 0 < q) :
    exact (.infinity (s * t)) = exact (.infinity s) * .ofRat (signed t q) := by
  have hpos : Exact.infTimes q = .posInf := by
    unfold Exact.infTimes
    rw [if_neg h.ne', if_pos h]
  have hneg : Exact.infTimes (-q) = .negInf := by
    unfold Exact.infTimes
    rw [if_neg (neg_neg_of_pos h).ne, if_neg (neg_neg_of_pos h).not_gt]
  cases s <;> cases t
  · exact (congrArg Exact.neg hneg).symm
  · exact (congrArg Exact.neg hpos).symm
  · exact hneg.symm
  · exact hpos.symm

theorem mul_infinity (s t : Sign) {q : ℚ} (h : 0 < q) :
    exact (.infinity (s * t)) = .ofRat (signed s q) * exact (.infinity t) := by
  have hcomm : s * t = t * s := by cases s <;> cases t <;> rfl
  rw [hcomm, infinity_mul t s h]
  cases t <;> rfl

theorem rounded_mul (x y : Float) : Rounded (value x * value y) (x * y) := by
  have hx := canonical x
  have hy := canonical y
  show Rounded (exact x.toModel.unpack * exact y.toModel.unpack)
    (.ofModel (.pack (.mul .binary64 x.toModel.unpack y.toModel.unpack)))
  generalize x.toModel.unpack = u at *
  generalize y.toModel.unpack = v at *
  have hpos : ∀ {m : ℕ} {e : ℤ}, 0 < m → (0 : ℚ) < m * 2 ^ e := fun hm => by positivity
  cases u with
  | notANumber => cases v <;> exact rounded_pack ⟨trivial, rfl⟩ rfl
  | infinity s =>
    cases v with
    | notANumber => cases s <;> exact rounded_pack ⟨trivial, rfl⟩ rfl
    | infinity t => cases s <;> cases t <;> exact rounded_pack ⟨trivial, rfl⟩ rfl
    | zero t => cases s <;> exact rounded_pack ⟨trivial, rfl⟩ rfl
    | finite t n f hn => exact rounded_pack ⟨trivial, rfl⟩ (infinity_mul s t (hpos hn))
  | zero s =>
    have hzero : ∀ q : ℚ, Exact.ofRat 0 = Exact.ofRat 0 * Exact.ofRat q := fun q => by simp
    cases v with
    | notANumber => exact rounded_pack ⟨trivial, rfl⟩ rfl
    | infinity t => cases t <;> exact rounded_pack ⟨trivial, rfl⟩ rfl
    | zero t => exact rounded_pack ⟨trivial, rfl⟩ (hzero 0)
    | finite t n f hn => exact rounded_pack ⟨trivial, rfl⟩ (hzero _)
  | finite s m e hm =>
    have hzero : ∀ q : ℚ, Exact.ofRat 0 = Exact.ofRat q * Exact.ofRat 0 := fun q => by simp
    cases v with
    | notANumber => exact rounded_pack ⟨trivial, rfl⟩ rfl
    | infinity t => exact rounded_pack ⟨trivial, rfl⟩ (mul_infinity s t (hpos hm))
    | zero t => exact rounded_pack ⟨trivial, rfl⟩ (hzero _)
    | finite t n f hn =>
      obtain ⟨hcanonical, r, hr, hexact⟩ := exists_roundWithAccuracy (Nat.mul_pos hm hn)
        (le_target_mul hx.1 hy.1 hm hn) (s * t)
      have hvalue : (m : ℚ) * 2 ^ e * (n * 2 ^ f) = (m * n : ℕ) * 2 ^ (e + f) := by
        rw [zpow_add₀ two_ne_zero]
        push_cast
        ring
      show Rounded (Exact.ofRat _ * Exact.ofRat _) _
      rw [Exact.ofRat_mul, ← signed_mul_signed, hvalue]
      exact rounded_pack_of_nearest hcanonical (hr.signed (s * t)) hexact

end BranchBound.Double
