import BranchBound.Proofs.Double.Whole

/-!
# Machine integers and back

A whole double becomes a machine integer, and that a double again. Within the range of machine
integers it comes back unchanged. Beyond it the conversion goes to the end of the range: the least
machine integer is a double, and the greatest one is not, and comes back as the next double above
it (`value_ofInt_toInt`). No other double is there, so the way back confuses no two machine integers
that were reached from whole doubles (`toInt_eq_of_ofInt_eq`).
-/

namespace BranchBound.Double

open Scalar

/-! ## To machine integers -/

/-- Whether a double is whole. The ones that are no rationals count as whole, since rounding leaves
them as they are. -/
def IsWhole (x : Float) : Prop := ∀ q : ℚ, value x = .ofRat q → ∃ n : ℤ, q = n

theorem isWhole_floor (x : Float) : IsWhole (floor x) := by
  intro q hq
  rw [value_floor] at hq
  cases hx : value x with
  | ofRat r =>
    rw [hx, Exact.floor_ofRat] at hq
    exact ⟨⌊r⌋, (Exact.ofRat.inj hq).symm⟩
  | _ =>
    rw [hx] at hq
    cases hq

theorem isWhole_ceil (x : Float) : IsWhole (ceil x) := by
  intro q hq
  rw [value_ceil] at hq
  cases hx : value x with
  | ofRat r =>
    rw [hx, Exact.ceil_ofRat] at hq
    exact ⟨⌈r⌉, (Exact.ofRat.inj hq).symm⟩
  | _ =>
    rw [hx] at hq
    cases hq

theorem toInt_eq (x : Float) : toInt x = max (-2 ^ 63) (min (2 ^ 63 - 1) (truncate x)) := rfl

/-- A whole double is its own whole part, as far as the range goes. -/
theorem toInt_of_whole {x : Float} {n : ℤ} (h : value x = .ofRat n) :
    toInt x = max (-2 ^ 63) (min (2 ^ 63 - 1) n) := by
  have habs : value x.abs = .ofRat ((|n| : ℤ) : ℚ) := by
    rw [value_abs, h, Exact.abs_ofRat, Int.cast_abs]
  have hneg : x < 0.0 ↔ n < 0 := by
    rw [lt_iff, h, value_zero, Exact.ofRat_lt, Int.cast_lt_zero]
  rw [toInt_eq, truncate, toUInt64_eq_min habs (Int.cast_nonneg (abs_nonneg n)), Int.floor_intCast]
  simp only [hneg]
  split
  · rename_i hlt
    rw [abs_of_neg hlt]
    omega
  · rename_i hge
    rw [abs_of_nonneg (not_lt.mp hge)]
    omega

section

variable {x y : Float}

theorem toUInt64_of_posInf (h : value x = .posInf) : x.toUInt64.toNat = 2 ^ 64 - 1 := by
  replace h : exact x.toModel.unpack = .posInf := h
  show (UInt64.ofNatClamp (x.toModel.unpack.toInt 0 (UInt64.size - 1)).toNat).toNat = _
  rw [toNat_ofNatClamp]
  cases hu : x.toModel.unpack with
  | infinity s =>
    rw [hu] at h
    cases s with
    | positive => rfl
    | negative => cases h
  | _ =>
    rw [hu] at h
    cases h

theorem toUInt64_of_nan (h : value x = .nan) : x.toUInt64.toNat = 0 := by
  replace h : exact x.toModel.unpack = .nan := h
  show (UInt64.ofNatClamp (x.toModel.unpack.toInt 0 (UInt64.size - 1)).toNat).toNat = _
  cases hu : x.toModel.unpack with
  | notANumber => rfl
  | infinity s =>
    rw [hu] at h
    cases s <;> cases h
  | _ =>
    rw [hu] at h
    cases h

theorem toInt_of_posInf (h : value x = .posInf) : toInt x = 2 ^ 63 - 1 := by
  have hneg : ¬x < 0.0 := by
    rw [lt_iff, h]
    exact Exact.not_posInf_lt _
  rw [toInt_eq, truncate, toUInt64_of_posInf (by rw [value_abs, h]; rfl), if_neg hneg]
  rfl

theorem toInt_of_negInf (h : value x = .negInf) : toInt x = -2 ^ 63 := by
  have hneg : x < 0.0 := by
    rw [lt_iff, h, value_zero]
    exact Exact.negInf_lt_ofRat _
  rw [toInt_eq, truncate, toUInt64_of_posInf (by rw [value_abs, h]; rfl), if_pos hneg]
  rfl

theorem toInt_of_nan (h : value x = .nan) : toInt x = 0 := by
  have hneg : ¬x < 0.0 := by
    rw [lt_iff, h]
    exact Exact.not_nan_lt _
  rw [toInt_eq, truncate, toUInt64_of_nan (by rw [value_abs, h]; rfl), if_neg hneg]
  rfl

/-! ## And back -/

/-- The greatest machine integer is rounded up to a power of two. -/
theorem value_ofInt_max : value (ofInt (2 ^ 63 - 1)) = .ofRat (2 ^ 63) := by
  show Exact.ofRat (signed .positive ((2 ^ 52 : ℕ) * 2 ^ (11 : ℤ))) = _
  congr 1
  norm_num [signed]

theorem value_ofInt_min : value (ofInt (-2 ^ 63)) = .ofRat (-2 ^ 63) := by
  show Exact.ofRat (signed .negative ((2 ^ 52 : ℕ) * 2 ^ (11 : ℤ))) = _
  congr 1
  norm_num [signed]

/-- A machine integer that a whole double becomes is a double itself, unless it is the greatest
one. -/
theorem value_ofInt_toInt (hx : IsWhole x) : value (ofInt (toInt x)) =
    .ofRat (if toInt x = 2 ^ 63 - 1 then 2 ^ 63 else toInt x) := by
  have hends : toInt x = 2 ^ 63 - 1 ∨ toInt x = -2 ^ 63 ∨
      value (ofInt (toInt x)) = .ofRat (toInt x) ∧ toInt x ≠ 2 ^ 63 - 1 := by
    cases h : value x with
    | posInf => exact Or.inl (toInt_of_posInf h)
    | negInf => exact Or.inr (Or.inl (toInt_of_negInf h))
    | nan =>
      rw [toInt_of_nan h]
      exact Or.inr (Or.inr ⟨value_ofInt (by norm_num), by norm_num⟩)
    | ofRat q =>
      obtain ⟨n, rfl⟩ := hx q h
      have htoInt := toInt_of_whole h
      rcases le_or_gt (2 ^ 63 - 1) n with hmax | hlt
      · exact Or.inl (by omega)
      · rcases le_or_gt n (-2 ^ 63) with hmin | hgt
        · exact Or.inr (Or.inl (by omega))
        · -- the double itself is nearest to its value
          have heq : toInt x = n := by omega
          rw [heq]
          exact Or.inr (Or.inr ⟨(faithful_ofInt n).value_eq h (nomatch ·), by omega⟩)
  rcases hends with hmax | hmin | ⟨hvalue, hne⟩
  · rw [if_pos hmax, hmax]
    exact value_ofInt_max
  · rw [hmin, if_neg (by norm_num)]
    push_cast
    exact value_ofInt_min
  · rw [if_neg hne]
    exact hvalue

/-- The way back does not confuse machine integers that were reached from whole doubles. -/
theorem toInt_eq_of_ofInt_eq (hx : IsWhole x) (hy : IsWhole y)
    (h : ofInt (toInt x) = ofInt (toInt y)) : toInt x = toInt y := by
  have hvalue := congrArg value h
  rw [value_ofInt_toInt hx, value_ofInt_toInt hy, Exact.ofRat.injEq] at hvalue
  have hle : ∀ z, toInt z ≤ 2 ^ 63 - 1 := fun z => by
    rw [toInt_eq]
    omega
  have hlex := hle x
  have hley := hle y
  split at hvalue <;> split at hvalue
  · omega
  · have : (2 ^ 63 : ℤ) = toInt y := by exact_mod_cast hvalue
    omega
  · have : toInt x = (2 ^ 63 : ℤ) := by exact_mod_cast hvalue
    omega
  · exact_mod_cast hvalue

end

end BranchBound.Double
