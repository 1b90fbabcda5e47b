import BranchBound.Proofs.Double.Value
import Mathlib.Tactic.Linarith

/-!
# Rounded shares

Rounding to the nearest keeps the order (`Nearest.mono`, `Rounded.mono`), which a faithful result
need not. A rounded share of a number moves by no more than the number itself, if the share is three
quarters at most (`share_sub_le`): `b - s` does not rise as `b` falls, where `s` is the share of `b`
after rounding.

That is not so of greater shares, although exact ones up to the whole have it. The unit of the share
halves where the share falls below a power of two, and the unit of the number need not: then one unit
less of the number can take away a unit and a half of the share.
-/

namespace BranchBound.Double

variable {b b' g q q' r r' : ℚ} {k k' t t' : ℤ}

/-! ## Units -/

theorem two_zpow_succ (t : ℤ) : (2 : ℚ) ^ (t + 1) = 2 * 2 ^ t := by
  rw [zpow_add_one₀ two_ne_zero, mul_comm]

/-- A number of 53 bits is a multiple of any unit at which it is too great for fewer bits. -/
theorem Fits.exists_mul (h : Fits b) (hfull : -1074 < t → 2 ^ 52 * 2 ^ t ≤ |b|) :
    ∃ n : ℤ, b = n * 2 ^ t := by
  obtain ⟨m, f, hm, hf, rfl⟩ := h
  have hle : t ≤ f := by
    by_contra hlt
    have hpos : (0 : ℚ) < 2 ^ f := zpow_pos two_pos f
    have hunit : (2 : ℚ) ^ (f + 1) ≤ 2 ^ t := zpow_le_zpow_right₀ one_le_two (by omega)
    have hbits : (|m| : ℚ) * 2 ^ f < 2 ^ 53 * 2 ^ f :=
      mul_lt_mul_of_pos_right (by exact_mod_cast hm) hpos
    have hge := hfull (by omega)
    rw [two_zpow_succ] at hunit
    rw [abs_mul, abs_of_pos hpos] at hge
    linarith
  refine ⟨m * 2 ^ (f - t).toNat, ?_⟩
  push_cast
  rw [mul_assoc, ← zpow_natCast, ← zpow_add₀ two_ne_zero]
  congr 2
  omega

/-! ## Order -/

/-- The exponent of a number of greater size is no smaller. -/
theorem NearestAt.exponent_le (h : NearestAt q k t) (h' : NearestAt q' k' t')
    (hle : |q| ≤ |q'|) : t ≤ t' := by
  by_contra hlt
  have hfull := h.full (by have := h'.least; omega)
  have hunit : (2 : ℚ) ^ (t' + 1) ≤ 2 ^ t := zpow_le_zpow_right₀ one_le_two (by omega)
  rw [two_zpow_succ] at hunit
  linarith [h'.lt]

/-- At one exponent the mantissas are as far apart as the numbers, up to one. -/
theorem NearestAt.sub_le_of_lt (h : NearestAt q k t) (h' : NearestAt q' k' t) {n : ℤ}
    (hlt : q - q' < n * 2 ^ t) : k - k' ≤ n := by
  have hpos : (0 : ℚ) < 2 ^ t := zpow_pos two_pos t
  have hk := (abs_le.mp (show |(k : ℚ) * 2 ^ t - q| ≤ 2 ^ t / 2 by linarith [h.near])).2
  have hk' := (abs_le.mp (show |(k' : ℚ) * 2 ^ t - q'| ≤ 2 ^ t / 2 by linarith [h'.near])).1
  have hprod : ((k - k' : ℤ) : ℚ) * 2 ^ t < ((n + 1 : ℤ) : ℚ) * 2 ^ t := by
    push_cast
    linarith
  have hint : k - k' < n + 1 := by exact_mod_cast lt_of_mul_lt_mul_right hprod hpos.le
  omega

/-- At one exponent the mantissas are in the order of the numbers. -/
theorem NearestAt.le_of_le (h : NearestAt q k t) (h' : NearestAt q' k' t) (hle : q ≤ q') :
    k ≤ k' := by
  have hpos : (0 : ℚ) < 2 ^ t := zpow_pos two_pos t
  have hone : k - k' ≤ 1 := h.sub_le_of_lt h' (by push_cast; linarith)
  by_contra hlt
  -- one mantissa apart the number is halfway between the two, so both of them are even
  obtain rfl : k = k' + 1 := by omega
  have hk := abs_le.mp (show |((k' + 1 : ℤ) : ℚ) * 2 ^ t - q| ≤ 2 ^ t / 2 by linarith [h.near])
  have hk' := abs_le.mp (show |(k' : ℚ) * 2 ^ t - q'| ≤ 2 ^ t / 2 by linarith [h'.near])
  push_cast at hk
  have heven : Even (k' + 1) := by
    refine h.even ?_
    push_cast
    rw [abs_of_nonneg (by linarith)]
    linarith
  have heven' : Even k' := by
    refine h'.even ?_
    rw [abs_of_nonpos (by linarith)]
    linarith
  exact (Int.even_add_one.mp heven) heven'

/-- Rounding keeps the order of numbers that are not negative. -/
theorem Nearest.mono_of_nonneg (h : Nearest q r) (h' : Nearest q' r') (h0 : 0 ≤ q)
    (hle : q ≤ q') : r ≤ r' := by
  obtain ⟨k, t, hk, rfl⟩ := h.exists_at
  obtain ⟨k', t', hk', rfl⟩ := h'.exists_at
  have habs : |q| = q := abs_of_nonneg h0
  have habs' : |q'| = q' := abs_of_nonneg (h0.trans hle)
  rcases (hk.exponent_le hk' (by rw [habs, habs']; exact hle)).eq_or_lt with rfl | hlt
  · have hmantissa := hk.le_of_le hk' hle
    exact mul_le_mul_of_nonneg_right (by exact_mod_cast hmantissa) (zpow_nonneg two_pos.le t)
  · -- the least number of the greater exponent is between the two
    have hleast := hk.least
    have hfits : Fits (2 ^ 52 * 2 ^ t') := ⟨2 ^ 52, t', by norm_num, by omega, by push_cast; rfl⟩
    have hunit : (2 : ℚ) ^ (t + 1) ≤ 2 ^ t' := zpow_le_zpow_right₀ one_le_two (by omega)
    rw [two_zpow_succ] at hunit
    have hbelow := hk.lt
    have habove := hk'.full (by omega)
    rw [habs] at hbelow
    rw [habs'] at habove
    exact ((h.rounds _ hfits).1 (by linarith)).trans ((h'.rounds _ hfits).2 habove)

/-- Rounding to the nearest keeps the order. -/
theorem Nearest.mono (h : Nearest q r) (h' : Nearest q' r') (hle : q ≤ q') : r ≤ r' := by
  have hzero : Fits 0 := ⟨0, 0, by norm_num, by norm_num, by norm_num⟩
  rcases le_total 0 q with h0 | h0
  · exact h.mono_of_nonneg h' h0 hle
  · rcases le_total 0 q' with h0' | h0'
    · exact ((h.rounds 0 hzero).1 h0).trans ((h'.rounds 0 hzero).2 h0')
    · exact neg_le_neg_iff.mp
        (h'.neg.mono_of_nonneg h.neg (neg_nonneg.mpr h0') (neg_le_neg hle))

theorem overflow_mono (hle : r ≤ r') : overflow r ≤ overflow r' := by
  have hpos := limit_pos
  by_cases hhi : limit ≤ r'
  · rw [overflow_of_le hhi]
    unfold overflow
    split_ifs <;> simp
  · by_cases hlo : r ≤ -limit
    · rw [overflow_of_ge hlo]
      unfold overflow
      split_ifs <;> simp
    · rw [overflow_of_lt (by linarith) (by linarith), overflow_of_lt (by linarith) (by linarith)]
      exact (Exact.ofRat_le r r').mpr hle

/-- Rounded results are in the order of the exact ones. -/
theorem Rounded.mono {x y : Float} (h : Rounded (.ofRat q) x) (h' : Rounded (.ofRat q') y)
    (hle : q ≤ q') : value x ≤ value y := by
  obtain ⟨r, hr, hx⟩ := h.nearest q rfl
  obtain ⟨r', hr', hy⟩ := h'.nearest q' rfl
  rw [hx, hy]
  exact overflow_mono (hr.mono hr' hle)

/-! ## Shares -/

/-- Two shares on either side of a power of two, whose numbers are one or two units apart. The unit
of the lower share is half of that of the numbers. -/
theorem share_sub_le_of_near {n n' : ℤ} {unit : ℚ} (hpos : 0 < unit) (hn : n' < n)
    (hn' : n < n' + 3) (hshare : (n * (2 * unit) - n' * (2 * unit)) * g ≤
      3 / 4 * (n * (2 * unit) - n' * (2 * unit)))
    (hk : k * (2 * unit) ≤ n * (2 * unit) * g + unit)
    (hk' : n' * (2 * unit) * g ≤ k' * unit + unit / 2)
    (heven : 2 * |k' * unit - n' * (2 * unit) * g| = unit → Even k') :
    (k * (2 * unit) - k' * unit : ℚ) ≤ n * (2 * unit) - n' * (2 * unit) := by
  -- after rounding the shares are `d` units apart
  obtain ⟨d, rfl⟩ : ∃ d, k' = 2 * k - d := ⟨2 * k - k', by ring⟩
  push_cast at hk' heven ⊢
  have hle : ∀ m : ℤ, (d : ℚ) * unit < ((m + 1 : ℤ) : ℚ) * unit → d ≤ m := fun m hlt =>
    Int.lt_add_one_iff.mp (by exact_mod_cast lt_of_mul_lt_mul_right hlt hpos.le)
  have hscale : ∀ m : ℤ, d ≤ m → (d : ℚ) * unit ≤ m * unit := fun m hm =>
    mul_le_mul_of_nonneg_right (by exact_mod_cast hm) hpos.le
  obtain rfl | rfl : n = n' + 1 ∨ n = n' + 2 := by omega
  · push_cast at hshare hk ⊢
    have hthree : d ≤ 3 := hle 3 (by push_cast; linarith)
    rcases hthree.lt_or_eq with hlt | rfl
    · have htwo := hscale 2 (by omega)
      push_cast at htwo
      linarith
    · -- three units apart the lower share is halfway between two mantissas, and went to the odd one
      push_cast at hk' heven
      have hodd : Even (2 * k - 3) := by
        refine heven ?_
        rw [abs_of_nonpos (by linarith)]
        linarith
      obtain ⟨m, hm⟩ := hodd
      omega
  · push_cast at hshare hk ⊢
    have hfour := hscale 4 (hle 4 (by push_cast; linarith))
    push_cast at hfour
    linarith

section

variable (hb : Fits b) (hb' : Fits b') (h0 : 0 ≤ b') (hle : b' ≤ b) (hg0 : 0 ≤ g)
  (hg : g ≤ 3 / 4)

include hb hb' h0 hle hg0 hg

/-- Two shares of one exponent. -/
theorem share_sub_le_of_eq (h : NearestAt (b * g) k t) (h' : NearestAt (b' * g) k' t) :
    (k * 2 ^ t - k' * 2 ^ t : ℚ) ≤ b - b' := by
  have hpos : (0 : ℚ) < 2 ^ t := zpow_pos two_pos t
  have hshare : ∀ c : ℚ, |c * g| ≤ |c| := fun c => by
    rw [abs_mul, abs_of_nonneg hg0]
    exact mul_le_of_le_one_right (abs_nonneg c) (by linarith)
  -- both numbers are multiples of the unit of the shares
  obtain ⟨n, rfl⟩ := hb.exists_mul fun hmin => (h.full hmin).trans (hshare b)
  obtain ⟨n', rfl⟩ := hb'.exists_mul fun hmin => (h'.full hmin).trans (hshare b')
  have hn : n' ≤ n := by exact_mod_cast le_of_mul_le_mul_right hle hpos
  have hk : k - k' ≤ n - n' := by
    rcases hn.eq_or_lt with rfl | hlt
    · have := h.le_of_le h' le_rfl
      omega
    · refine h.sub_le_of_lt h' ?_
      have hdiff : (0 : ℚ) < ((n - n' : ℤ) : ℚ) * 2 ^ t :=
        mul_pos (by exact_mod_cast sub_pos.mpr hlt) hpos
      calc n * 2 ^ t * g - n' * 2 ^ t * g = ((n - n' : ℤ) : ℚ) * 2 ^ t * g := by
            push_cast
            ring
        _ < ((n - n' : ℤ) : ℚ) * 2 ^ t := mul_lt_of_lt_one_right hdiff (by linarith)
  calc (k * 2 ^ t - k' * 2 ^ t : ℚ) = ((k - k' : ℤ) : ℚ) * 2 ^ t := by
        push_cast
        ring
    _ ≤ ((n - n' : ℤ) : ℚ) * 2 ^ t := mul_le_mul_of_nonneg_right (by exact_mod_cast hk) hpos.le
    _ = n * 2 ^ t - n' * 2 ^ t := by
        push_cast
        ring

/-- The lower one of two shares has a smaller exponent. -/
theorem share_sub_le_of_lt (h : NearestAt (b * g) k t) (h' : NearestAt (b' * g) k' t')
    (htt' : t' < t) : (k * 2 ^ t - k' * 2 ^ t' : ℚ) ≤ b - b' := by
  have hpos : (0 : ℚ) < 2 ^ t' := zpow_pos two_pos t'
  have hfull := h.full (by have := h'.least; omega)
  have hlt := h'.lt
  rw [abs_of_nonneg (mul_nonneg (h0.trans hle) hg0)] at hfull
  rw [abs_of_nonneg (mul_nonneg h0 hg0)] at hlt
  have hk := (abs_le.mp (show |(k : ℚ) * 2 ^ t - b * g| ≤ 2 ^ t / 2 by linarith [h.near])).2
  have hk' :=
    (abs_le.mp (show |(k' : ℚ) * 2 ^ t' - b' * g| ≤ 2 ^ t' / 2 by linarith [h'.near])).1
  have hunit : (2 : ℚ) * 2 ^ t' ≤ 2 ^ t := by
    rw [← two_zpow_succ]
    exact zpow_le_zpow_right₀ one_le_two (by omega)
  have hshare : (b - b') * g ≤ 3 / 4 * (b - b') := by
    rw [mul_comm]
    exact mul_le_mul_of_nonneg_right hg (sub_nonneg.mpr hle)
  by_cases hfar : 3 * 2 ^ t ≤ b - b'
  · linarith
  · -- both numbers are above the power of two
    obtain ⟨n, rfl⟩ := hb.exists_mul (t := t) fun _ => by
      rw [abs_of_nonneg (h0.trans hle)]
      nlinarith
    obtain ⟨n', rfl⟩ := hb'.exists_mul (t := t) fun _ => by
      rw [abs_of_nonneg h0]
      nlinarith
    have ht : (2 : ℚ) ^ t = 2 * 2 ^ t' := by
      rw [← two_zpow_succ]
      congr 1
      by_contra hne
      have hfour : (2 : ℚ) ^ (t' + 1 + 1) ≤ 2 ^ t := zpow_le_zpow_right₀ one_le_two (by omega)
      rw [two_zpow_succ, two_zpow_succ] at hfour
      linarith
    have heven := h'.even
    rw [ht] at hk hk' hfull hlt hshare hfar hle heven ⊢
    have hpos2 : (0 : ℚ) < 2 * 2 ^ t' := by linarith
    refine share_sub_le_of_near hpos ?_ ?_ hshare (by linarith) (by linarith) heven
    · by_contra hnot
      have hnn' : (n : ℚ) * (2 * 2 ^ t') ≤ n' * (2 * 2 ^ t') :=
        mul_le_mul_of_nonneg_right (by exact_mod_cast not_lt.mp hnot) hpos2.le
      have hge := mul_le_mul_of_nonneg_right hnn' hg0
      linarith
    · by_contra hnot
      have hnn' : ((n' + 3 : ℤ) : ℚ) * (2 * 2 ^ t') ≤ n * (2 * 2 ^ t') :=
        mul_le_mul_of_nonneg_right (by exact_mod_cast not_lt.mp hnot) hpos2.le
      push_cast at hnn'
      linarith

end

/-- A share of three quarters at most moves by no more than its number, after rounding. -/
theorem share_sub_le (hb : Fits b) (hb' : Fits b') (h0 : 0 ≤ b') (hle : b' ≤ b) (hg0 : 0 ≤ g)
    (hg : g ≤ 3 / 4) (h : Nearest (b * g) r) (h' : Nearest (b' * g) r') : r - r' ≤ b - b' := by
  obtain ⟨k, t, hk, rfl⟩ := h.exists_at
  obtain ⟨k', t', hk', rfl⟩ := h'.exists_at
  have hshares : b' * g ≤ b * g := mul_le_mul_of_nonneg_right hle hg0
  have hexponent : t' ≤ t := by
    refine hk'.exponent_le hk ?_
    rwa [abs_of_nonneg (mul_nonneg h0 hg0), abs_of_nonneg (mul_nonneg (h0.trans hle) hg0)]
  rcases hexponent.eq_or_lt with rfl | hlt
  · exact share_sub_le_of_eq hb hb' h0 hle hg0 hg hk hk'
  · exact share_sub_le_of_lt hb hb' h0 hle hg0 hg hk hk' hlt

/-- What is no greater in size than a number of 53 bits is no greater after rounding. -/
theorem Nearest.abs_le_abs (h : Nearest q r) (hb : Fits b) (hle : |q| ≤ |b|) : |r| ≤ |b| := by
  have hsize : Fits |b| := by
    rcases abs_choice b with h | h
    · rwa [h]
    · rw [h]
      exact hb.neg
  obtain ⟨hlo, hhi⟩ := abs_le'.mp hle
  refine abs_le'.mpr ⟨(h.rounds _ hsize).1 hlo, ?_⟩
  linarith [(h.rounds _ hsize.neg).2 (by linarith)]

/-- A share is no greater in size than the number, after rounding. -/
theorem Nearest.share_le (h : Nearest (b * g) r) (hb : Fits b) (hg0 : 0 ≤ g) (hg1 : g ≤ 1) :
    |r| ≤ |b| := by
  refine h.abs_le_abs hb ?_
  rw [abs_mul, abs_of_nonneg hg0]
  exact mul_le_of_le_one_right (abs_nonneg b) hg1

/-- The same of the sizes of the shares, also of numbers below zero. -/
theorem share_abs_sub_le (hb : Fits b) (hb' : Fits b') (hle : b' ≤ b) (hg0 : 0 ≤ g)
    (hg : g ≤ 3 / 4) (h : Nearest (b * g) r) (h' : Nearest (b' * g) r') :
    |r| - |r'| ≤ b - b' := by
  rcases le_or_gt 0 b' with h0 | h0
  · have hr' : 0 ≤ r' := nearest_zero.mono h' (mul_nonneg h0 hg0)
    have hr : r' ≤ r := h'.mono h (mul_le_mul_of_nonneg_right hle hg0)
    rw [abs_of_nonneg hr', abs_of_nonneg (hr'.trans hr)]
    exact share_sub_le hb hb' h0 hle hg0 hg h h'
  · rcases le_or_gt b 0 with hneg | hpos
    · -- below zero the share grows in size
      have hr : r ≤ 0 := h.mono nearest_zero (mul_nonpos_of_nonpos_of_nonneg hneg hg0)
      have hr' : r' ≤ r := h'.mono h (mul_le_mul_of_nonneg_right hle hg0)
      rw [abs_of_nonpos hr, abs_of_nonpos (hr'.trans hr)]
      linarith
    · have hsize := h.share_le hb hg0 (by linarith)
      rw [abs_of_pos hpos] at hsize
      linarith [abs_nonneg r']

end BranchBound.Double
