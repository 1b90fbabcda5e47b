import Mathlib

/-!
# Doubles taken apart

A double that is finite and not zero is a sign, a mantissa and an exponent in canonical form: the
mantissa has at most 53 bits, and fewer only at the least exponent (`Normal`). What is unpacked from
the bits of a double is canonical (`canonical_unpack`). Packing keeps what is canonical, unless its
exponent is beyond the range of doubles, which makes it infinite (`unpack_pack`).
-/

namespace BranchBound.Double

open Float.Model Float.Model.UnpackedFloat

/-- Mantissa and exponent in canonical form; the exponent may be beyond the range of doubles. -/
structure Normal (m : ℕ) (e : ℤ) : Prop where
  lt : m < 2 ^ 53
  le : -1074 ≤ e
  full : -1074 < e → 2 ^ 52 ≤ m

/-- Whether a number taken apart is in canonical form. -/
def Canonical : UnpackedFloat → Prop
  | .finite _ m e _ => Normal m e
  | _ => True

/-- What the range of doubles makes of a number: beyond it is infinity. -/
def clip : UnpackedFloat → UnpackedFloat
  | .finite s m e hm => if e ≤ 971 then .finite s m e hm else .infinity s
  | u => u

theorem clip_finite {s : Sign} {m : ℕ} {e : ℤ} {hm : 0 < m} (h : e ≤ 971) :
    clip (.finite s m e hm) = .finite s m e hm := if_pos h

theorem clip_infinite {s : Sign} {m : ℕ} {e : ℤ} {hm : 0 < m} (h : ¬e ≤ 971) :
    clip (.finite s m e hm) = .infinity s := if_neg h

theorem exponentBias_eq : ((Format.binary64.exponentBias : ℕ) : ℤ) = 1023 := rfl

theorem mantissaBits_eq : Format.binary64.mantissaBits = 53 := rfl

/-! ## Unpacking -/

/-- The mantissa with its implicit bit. -/
theorem toNat_implicit (v : BitVec 52) : (1#1 ++ v).toNat = 2 ^ 52 + v.toNat := by
  rw [BitVec.toNat_append, ← Nat.shiftLeft_add_eq_or_of_lt v.isLt, Nat.shiftLeft_eq]
  simp

/-- What is unpacked is canonical, and within the range of doubles. -/
theorem canonical_unpack (b : BitVec 64) :
    Canonical (UnpackedFloat.unpack .binary64 b) ∧
      clip (UnpackedFloat.unpack .binary64 b) = UnpackedFloat.unpack .binary64 b := by
  have hexp : (@unpackExponent .binary64 b).toNat < 2048 := BitVec.isLt _
  have hman : (@unpackMantissa .binary64 b).toNat < 2 ^ 52 := BitVec.isLt _
  unfold UnpackedFloat.unpack
  dsimp only
  split
  · split <;> exact ⟨trivial, rfl⟩
  · rename_i hinfinite
    split
    · rename_i hzero
      split
      · exact ⟨trivial, rfl⟩
      · have hzero : (@unpackExponent .binary64 b).toNat = 0 := by rw [hzero]; rfl
        rw [hzero, exponentBias_eq]
        refine ⟨⟨?_, ?_, ?_⟩, clip_finite ?_⟩ <;> omega
    · rename_i hnonzero
      have hinfinite : (@unpackExponent .binary64 b).toNat ≠ 2047 := fun h =>
        hinfinite (BitVec.eq_of_toNat_eq h)
      have hnonzero : (@unpackExponent .binary64 b).toNat ≠ 0 := fun h =>
        hnonzero (BitVec.eq_of_toNat_eq h)
      have hmantissa := toNat_implicit (@unpackMantissa .binary64 b)
      rw [exponentBias_eq]
      refine ⟨⟨?_, ?_, ?_⟩, clip_finite ?_⟩ <;> omega

/-! ## Packing -/

/-- A normal number is unpacked with its implicit bit. -/
theorem unpack_normal (s : Sign) {m : ℕ} {e : ℤ} (hm : 0 < m) (hfull : 2 ^ 52 ≤ m)
    (hlt : m < 2 ^ 53) (hle : -1074 ≤ e) (he : e ≤ 971) :
    UnpackedFloat.unpack .binary64 (packComponents .binary64 s (BitVec.ofNat 11 (e + 1075).toNat)
      (BitVec.ofNat 52 m)) = .finite s m e hm := by
  have hexp : (BitVec.ofNat 11 (e + 1075).toNat).toNat = (e + 1075).toNat := by
    rw [BitVec.toNat_ofNat, Nat.mod_eq_of_lt (by omega)]
  have hinfinite : BitVec.ofNat 11 (e + 1075).toNat ≠ -1#11 := by
    intro h
    have hnat : (BitVec.ofNat 11 (e + 1075).toNat).toNat = 2047 := congrArg BitVec.toNat h
    omega
  have hnonzero : BitVec.ofNat 11 (e + 1075).toNat ≠ 0#11 := by
    intro h
    have hnat : (BitVec.ofNat 11 (e + 1075).toNat).toNat = 0 := congrArg BitVec.toNat h
    omega
  have hmantissa : (1#1 ++ BitVec.ofNat 52 m).toNat = m := by
    rw [toNat_implicit, BitVec.toNat_ofNat]
    omega
  unfold UnpackedFloat.unpack
  simp only [unpackMantissa_packComponents, unpackExponent_packComponents,
    unpackSign_packComponents, Sign.ofBitVec_toBitVec, if_neg hinfinite, if_neg hnonzero, hexp,
    hmantissa, exponentBias_eq]
  congr 1
  omega

/-- A subnormal number is unpacked at the least exponent. -/
theorem unpack_subnormal (s : Sign) {m : ℕ} (hm : 0 < m) (hlt : m < 2 ^ 52) :
    UnpackedFloat.unpack .binary64 (packComponents .binary64 s 0#11 (BitVec.ofNat 52 m)) =
      .finite s m (-1074) hm := by
  have hmantissa : (BitVec.ofNat 52 m).toNat = m := by
    rw [BitVec.toNat_ofNat, Nat.mod_eq_of_lt hlt]
  have hnonzero : BitVec.ofNat 52 m ≠ 0#52 := by
    intro h
    have hnat : (BitVec.ofNat 52 m).toNat = 0 := congrArg BitVec.toNat h
    omega
  unfold UnpackedFloat.unpack
  simp only [unpackMantissa_packComponents, unpackExponent_packComponents,
    unpackSign_packComponents, Sign.ofBitVec_toBitVec]
  rw [if_neg (by decide), if_pos trivial, dif_neg hnonzero]
  simp only [hmantissa]
  rfl

/-- Packing keeps what is canonical within the range of doubles. -/
theorem unpack_pack {u : UnpackedFloat} (h : Canonical u) :
    UnpackedFloat.unpack .binary64 (UnpackedFloat.pack .binary64 u) = clip u := by
  cases u with
  | notANumber => rfl
  | infinity s => cases s <;> rfl
  | zero s => cases s <;> rfl
  | finite s m e hm =>
    obtain ⟨hlt, hle, hfull⟩ := h
    have hbias : (e + (Format.binary64.exponentBias : ℤ) +
        (Format.binary64.mantissaBitsWithoutImplicit : ℤ)).toNat = (e + 1075).toNat := by
      rw [exponentBias_eq]
      show (e + 1023 + 52).toNat = _
      congr 1
      omega
    unfold UnpackedFloat.pack
    simp only [hbias, mantissaBits_eq]
    by_cases he : e ≤ 971
    · rw [if_neg (by show ¬2 ^ 11 ≤ _; omega), clip_finite he]
      by_cases hnormal : 2 ^ 52 ≤ m
      · have hlog : m.log2 = 52 := (Nat.log2_eq_iff hm.ne').mpr ⟨hnormal, hlt⟩
        rw [if_pos (show m.log2 + 1 = 53 by omega)]
        exact unpack_normal s hm hnormal hlt hle he
      · have hlog : m.log2 < 52 := (Nat.log2_lt hm.ne').mpr (Nat.lt_of_not_le hnormal)
        rw [if_neg (show ¬m.log2 + 1 = 53 by omega)]
        obtain rfl : e = -1074 := by
          by_contra hne
          exact hnormal (hfull (by omega))
        exact unpack_subnormal s hm (Nat.lt_of_not_le hnormal)
    · rw [if_pos (by show 2 ^ 11 ≤ _; omega), clip_infinite he]
      cases s <;> rfl

end BranchBound.Double
