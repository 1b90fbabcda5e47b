import BranchBound.Proofs.Double.Value

/-!
# Doubles and their negatives

Doubles of one value are the same one, the two zeros apart (`eq_or_zero`). Taking the negative
changes the sign alone and rounding does not look at signs: sums and products of negatives are the
negatives of sums and products, up to the sign of zero (`value_neg_add_neg`, `value_neg_mul`).
-/

namespace BranchBound.Double

open Float.Model Float.Model.UnpackedFloat

/-! ## Doubles of one value -/

theorem eq_of_unpack_eq {x y : Float} (h : x.toModel.unpack = y.toModel.unpack) : x = y := by
  have hbits := (unpack_inj_of_valid x.toModel.valid y.toModel.valid).mp h
  exact Float.toBits_inj.mp (UInt64.toBitVec_inj.mp hbits)

/-- Canonical numbers that are not zero have the same parts if they have the same value. -/
theorem eq_of_value_eq {s t : Sign} {m n : ℕ} {e f : ℤ} (hm : 0 < m) (hn : 0 < n)
    (hme : Normal m e) (hnf : Normal n f)
    (h : signed s (m * 2 ^ e) = signed t (n * 2 ^ f)) : s = t ∧ m = n ∧ e = f := by
  have hm : (0 : ℚ) < m * 2 ^ e := by positivity
  have hn : (0 : ℚ) < n * 2 ^ f := by positivity
  have habs : s = t ∧ (m : ℚ) * 2 ^ e = n * 2 ^ f := by
    cases s <;> cases t <;> simp only [signed, true_and, reduceCtorEq, false_and] at h ⊢ <;>
      linarith
  have hcompare := compare_normal hme hnf
  rw [habs.2, compare_eq_iff_eq.mpr rfl, Ordering.then_eq_eq, compare_eq_iff_eq,
    compare_eq_iff_eq] at hcompare
  exact ⟨habs.1, hcompare.2, hcompare.1⟩

/-- Doubles of one value are the same one, zeros apart. -/
theorem eq_or_zero {x y : Float} (h : value x = value y) : x = y ∨ value x = .ofRat 0 := by
  have hx := (canonical x).1
  have hy := (canonical y).1
  suffices hparts : x.toModel.unpack = y.toModel.unpack ∨ exact x.toModel.unpack = .ofRat 0 by
    exact hparts.imp_left eq_of_unpack_eq
  unfold value at h
  generalize x.toModel.unpack = u at *
  generalize y.toModel.unpack = v at *
  cases u with
  | zero s => exact Or.inr rfl
  | notANumber =>
    cases v with
    | notANumber => exact Or.inl rfl
    | infinity t => cases t <;> cases h
    | zero t => cases h
    | finite t n f hn => cases h
  | infinity s =>
    cases v with
    | infinity t => cases s <;> cases t <;> first | exact Or.inl rfl | cases h
    | _ => cases s <;> cases h
  | finite s m e hm =>
    cases v with
    | notANumber => cases h
    | infinity t => cases t <;> cases h
    | zero t => exact Or.inr h
    | finite t n f hn =>
      obtain ⟨rfl, rfl, rfl⟩ := eq_of_value_eq hm hn hx hy (Exact.ofRat.inj h)
      exact Or.inl rfl

/-! ## Negatives -/

theorem canonical_neg {u : UnpackedFloat} (h : Canonical u) : Canonical u.neg := by
  cases u with
  | finite => exact h
  | _ => trivial

theorem clip_neg (u : UnpackedFloat) : clip u.neg = (clip u).neg := by
  cases u with
  | finite s m e hm =>
    show (if e ≤ 971 then _ else _) = UnpackedFloat.neg (if e ≤ 971 then _ else _)
    split <;> rfl
  | _ => rfl

theorem exact_neg (u : UnpackedFloat) : exact u.neg = -exact u := by
  cases u with
  | notANumber => rfl
  | infinity s => cases s <;> rfl
  | zero s =>
    show Exact.ofRat 0 = -Exact.ofRat 0
    rw [Exact.neg_ofRat, neg_zero]
  | finite s m e hm => exact congrArg Exact.ofRat (signed_neg s _)

theorem exact_clip_neg (u : UnpackedFloat) : exact (clip u.neg) = -exact (clip u) := by
  rw [clip_neg, exact_neg]

theorem unpack_neg (x : Float) : (-x).toModel.unpack = x.toModel.unpack.neg := by
  obtain ⟨hcanonical, hclip⟩ := canonical x
  have hunpack : (-x).toModel.unpack = clip x.toModel.unpack.neg :=
    unpack_pack (canonical_neg hcanonical)
  rw [hunpack, clip_neg, hclip]

theorem neg_unpacked_neg (u : UnpackedFloat) : u.neg.neg = u := by
  have hsign : ∀ s : Sign, - -s = s := fun s => by cases s <;> rfl
  cases u <;> simp only [UnpackedFloat.neg, hsign]

protected theorem neg_neg (x : Float) : - -x = x := by
  refine eq_of_unpack_eq ?_
  rw [unpack_neg, unpack_neg, neg_unpacked_neg]

/-! ## Sums -/

theorem canonical_add {u v : UnpackedFloat} (hu : Canonical u) (hv : Canonical v) :
    Canonical (UnpackedFloat.add .binary64 u v) := by
  cases u with
  | notANumber => cases v <;> trivial
  | infinity s =>
    cases v with
    | infinity t => cases s <;> cases t <;> trivial
    | _ => trivial
  | zero s =>
    cases v with
    | zero t => cases s <;> cases t <;> trivial
    | finite t n f hn => exact hv
    | _ => trivial
  | finite s m e hm =>
    cases v with
    | finite t n f hn => exact (exists_normalize _ _ _).1
    | zero t => exact hu
    | _ => trivial

theorem value_add (x y : Float) : value (x + y) =
    exact (clip (.add .binary64 x.toModel.unpack y.toModel.unpack)) :=
  value_pack (canonical_add (canonical x).1 (canonical y).1)

theorem apply_neg (s : Sign) (n : ℤ) : (-s).apply n = -s.apply n := by
  cases s with
  | positive => rfl
  | negative => exact (neg_neg n).symm

theorem sub_unpacked_eq (u v : UnpackedFloat) :
    UnpackedFloat.sub .binary64 u v = UnpackedFloat.add .binary64 u v.neg := by
  cases u <;> cases v <;>
    simp only [UnpackedFloat.sub, UnpackedFloat.add, UnpackedFloat.neg, apply_neg,
      Int.sub_eq_add_neg]

theorem sub_eq_add_neg (x y : Float) : x - y = x + -y := by
  show Float.ofModel (.pack (.sub .binary64 x.toModel.unpack y.toModel.unpack)) =
    .ofModel (.pack (.add .binary64 x.toModel.unpack (-y).toModel.unpack))
  rw [sub_unpacked_eq, unpack_neg]

/-- Rounding does not look at the sign. -/
theorem roundWithAccuracy_neg (s : Sign) (m : ℕ) (e : ℤ) :
    roundWithAccuracy .binary64 (-s) m e .exact =
      (roundWithAccuracy .binary64 s m e .exact).neg := by
  unfold roundWithAccuracy
  dsimp only
  split <;> rfl

theorem round_neg (s : Sign) (m : ℕ) (e : ℤ) : UnpackedFloat.round .binary64 (-s) m e =
    (UnpackedFloat.round .binary64 s m e).neg :=
  roundWithAccuracy_neg s _ _

theorem exact_normalize_neg (m e : ℤ) (s : Sign) :
    exact (clip (UnpackedFloat.normalize .binary64 (-m) e s)) =
      -exact (clip (UnpackedFloat.normalize .binary64 m e s)) := by
  unfold UnpackedFloat.normalize
  rcases lt_trichotomy m 0 with hneg | rfl | hpos
  · rw [compare_lt_iff_lt.mpr hneg, compare_gt_iff_gt.mpr (neg_pos.mpr hneg), ← exact_clip_neg,
      ← round_neg]
    rfl
  · rw [neg_zero, compare_eq_iff_eq.mpr rfl, ← exact_clip_neg]
    rfl
  · rw [compare_gt_iff_gt.mpr hpos, compare_lt_iff_lt.mpr (neg_neg_of_pos hpos), ← exact_clip_neg,
      ← round_neg, neg_neg]
    rfl

/-- The sum of the negatives is the negative of the sum, up to the sign of zero. -/
theorem value_neg_add_neg (x y : Float) : value (-x + -y) = -value (x + y) := by
  rw [value_add, value_add, unpack_neg, unpack_neg]
  generalize x.toModel.unpack = u
  generalize y.toModel.unpack = v
  cases u with
  | notANumber => cases v <;> rfl
  | infinity s =>
    cases v with
    | infinity t => cases s <;> cases t <;> rfl
    | _ => cases s <;> rfl
  | zero s =>
    cases v with
    | notANumber => rfl
    | infinity t => cases t <;> rfl
    | zero t => cases s <;> cases t <;> exact exact_clip_neg (.zero .positive)
    | finite t n f hn => exact exact_clip_neg (.finite t n f hn)
  | finite s m e hm =>
    cases v with
    | notANumber => rfl
    | infinity t => cases t <;> rfl
    | zero t => exact exact_clip_neg (.finite s m e hm)
    | finite t n f hn =>
      show exact (clip (UnpackedFloat.normalize .binary64 ((-s).apply _ + (-t).apply _) _ _)) = _
      rw [apply_neg, apply_neg, ← Int.neg_add, exact_normalize_neg]
      rfl

/-! ## Products -/

theorem canonical_mul {u v : UnpackedFloat} (hu : Canonical u) (hv : Canonical v) :
    Canonical (UnpackedFloat.mul .binary64 u v) := by
  cases u with
  | finite s m e hm =>
    cases v with
    | finite t n f hn =>
      exact (exists_roundWithAccuracy (Nat.mul_pos hm hn) (le_target_mul hu hv hm hn) _).1
    | _ => trivial
  | _ => cases v <;> trivial

theorem value_mul (x y : Float) : value (x * y) =
    exact (clip (.mul .binary64 x.toModel.unpack y.toModel.unpack)) :=
  value_pack (canonical_mul (canonical x).1 (canonical y).1)

/-- A product with a negative is the negative of the product. -/
theorem value_neg_mul (x y : Float) : value (-x * y) = -value (x * y) := by
  have hsign : ∀ s t : Sign, -s * t = -(s * t) := fun s t => by cases s <;> cases t <;> rfl
  have hmul : ∀ u v : UnpackedFloat, UnpackedFloat.mul .binary64 u.neg v =
      (UnpackedFloat.mul .binary64 u v).neg := by
    intro u v
    cases u <;> cases v <;>
      simp only [UnpackedFloat.mul, UnpackedFloat.neg, hsign, roundWithAccuracy_neg]
  rw [value_mul, value_mul, unpack_neg, hmul, exact_clip_neg]

end BranchBound.Double
