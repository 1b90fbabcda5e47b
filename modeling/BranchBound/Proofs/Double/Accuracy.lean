import BranchBound.Proofs.Double.Division
import BranchBound.Proofs.Double.Shares
import BranchBound.Proofs.Double.Whole

/-!
# How far off rounding is

A rounded result is off by a share of the exact one (`roundoff`) and, among the smallest doubles,
by half of the least double (`least`) at most. Sums are not even that far off there: they are
multiples of the least double, like their summands (`Nearest.error_le_of_multiple`). Every number of
53 bits is as far from what is rounded as the result, or farther (`Nearest.error_le_of_fits`).

As long as results are far from the end of the range (`ceiling`), they are rationals. The errors of
a sum of many doubles add up (`exists_sum`).
-/

namespace BranchBound.Double

/-- The greatest error of rounding, as a share of the exact result. -/
def roundoff : ℚ := 1 / 2 ^ 53

/-- The least double above zero. -/
def least : ℚ := 2 ^ (-1074 : ℤ)

/-- Exact results up to this one do not leave the range of doubles. -/
def ceiling : ℚ := 2 ^ 1023

theorem roundoff_pos : 0 < roundoff := by norm_num [roundoff]

theorem one_le_ceiling : 1 ≤ ceiling := one_le_pow₀ one_le_two

theorem least_pos : 0 < least := zpow_pos two_pos _

theorem least_le_roundoff : least ≤ roundoff := by
  have hle : (2 : ℚ) ^ (-1074 : ℤ) ≤ 2 ^ (-53 : ℤ) := zpow_le_zpow_right₀ one_le_two (by norm_num)
  refine hle.trans (le_of_eq ?_)
  norm_num [roundoff]

/-- The range of doubles ends as far above one as the least double is below it, nearly. -/
theorem limit_mul_least : limit * least = 8 * roundoff := by
  have hprod : limit * least = 2 ^ (-50 : ℤ) := by
    unfold limit least
    rw [← zpow_natCast, ← zpow_add₀ two_ne_zero]
    norm_num
  rw [hprod]
  norm_num [roundoff]

/-! ## Errors of rounding -/

section

variable {c q r : ℚ} {k t : ℤ}

/-- Above the least exponent the unit is a share of the number. -/
theorem NearestAt.unit_le (h : NearestAt q k t) (ht : -1074 < t) : 2 ^ t / 2 ≤ roundoff * |q| := by
  have hfull := h.full ht
  unfold roundoff
  linarith

theorem Nearest.error_le (h : Nearest q r) : |r - q| ≤ roundoff * |q| + least / 2 := by
  obtain ⟨k, t, hk, rfl⟩ := h.exists_at
  have hnear := hk.near
  have hleast := least_pos
  have hshare : 0 ≤ roundoff * |q| := mul_nonneg roundoff_pos.le (abs_nonneg q)
  rcases hk.least.eq_or_lt with rfl | ht
  · rw [show (2 : ℚ) ^ (-1074 : ℤ) = least from rfl] at hnear ⊢
    linarith
  · linarith [hk.unit_le ht]

/-- A multiple of the least double is rounded among the smallest doubles without an error. -/
theorem Nearest.error_le_of_multiple (h : Nearest q r) (hq : ∃ n : ℤ, q = n * least) :
    |r - q| ≤ roundoff * |q| := by
  obtain ⟨k, t, hk, rfl⟩ := h.exists_at
  have hnear := hk.near
  rcases hk.least.eq_or_lt with rfl | ht
  · obtain ⟨n, rfl⟩ := hq
    have hshare : 0 ≤ roundoff * |n * least| := mul_nonneg roundoff_pos.le (abs_nonneg _)
    rw [show (2 : ℚ) ^ (-1074 : ℤ) = least from rfl] at hnear ⊢
    have hdiff : (k : ℚ) * least - n * least = ((k - n : ℤ) : ℚ) * least := by
      push_cast
      ring
    -- half a unit away is no distance between multiples of it
    have hzero : k - n = 0 := by
      rw [hdiff, abs_mul, abs_of_pos least_pos, ← Int.cast_abs] at hnear
      have hlt : 2 * ((|k - n| : ℤ) : ℚ) ≤ 1 := by
        refine le_of_mul_le_mul_right ?_ least_pos
        linarith
      have hint : 2 * |k - n| ≤ 1 := by exact_mod_cast hlt
      exact abs_eq_zero.mp (by have := abs_nonneg (k - n); omega)
    rw [hdiff, hzero]
    simpa using hshare
  · linarith [hk.unit_le ht]

/-- No multiple of the unit is nearer. -/
theorem NearestAt.error_le (h : NearestAt q k t) (n : ℤ) :
    |(k : ℚ) * 2 ^ t - q| ≤ |(n : ℚ) * 2 ^ t - q| := by
  have hpos : (0 : ℚ) < 2 ^ t := zpow_pos two_pos t
  have hnear := h.near
  by_contra hlt
  rw [not_le] at hlt
  have hne : n ≠ k := fun heq => by
    rw [heq] at hlt
    exact lt_irrefl _ hlt
  have hone : (1 : ℚ) ≤ |((k - n : ℤ) : ℚ)| := by
    rw [← Int.cast_abs]
    exact_mod_cast Int.one_le_abs (sub_ne_zero.mpr hne.symm)
  have hapart : 2 ^ t ≤ |(k : ℚ) * 2 ^ t - n * 2 ^ t| := by
    rw [← sub_mul, abs_mul, abs_of_pos hpos, ← Int.cast_sub]
    exact le_mul_of_one_le_left hpos.le hone
  have htriangle := abs_sub_le ((k : ℚ) * 2 ^ t) q (n * 2 ^ t)
  rw [abs_sub_comm q] at htriangle
  linarith

/-- No number of 53 bits is nearer. -/
theorem Nearest.error_le_of_fits (h : Nearest q r) (hc : Fits c) : |r - q| ≤ |c - q| := by
  obtain ⟨k, t, hk, rfl⟩ := h.exists_at
  by_cases hfull : -1074 < t → 2 ^ 52 * 2 ^ t ≤ |c|
  · obtain ⟨n, rfl⟩ := hc.exists_mul hfull
    exact hk.error_le n
  · -- the least number of all bits is on the way
    push Not at hfull
    obtain ⟨ht, hlt⟩ := hfull
    have hqfull := hk.full ht
    have hlo := neg_abs_le c
    have hhi := le_abs_self c
    rcases le_total 0 q with h0 | h0
    · rw [abs_of_nonneg h0] at hqfull
      refine (hk.error_le (2 ^ 52)).trans ?_
      push_cast
      rw [abs_of_nonpos (by linarith), abs_of_nonpos (by linarith)]
      linarith
    · rw [abs_of_nonpos h0] at hqfull
      refine (hk.error_le (-2 ^ 52)).trans ?_
      push_cast
      rw [abs_of_nonneg (by linarith), abs_of_nonneg (by linarith)]
      linarith

end

/-! ## Results within the range -/

section

variable {x y z : Float} {p q : ℚ}

/-- An exact result that is far from the end of the range is rounded to a rational. -/
theorem Rounded.exists_nearest (h : Rounded (.ofRat q) z) (hq : |q| ≤ ceiling) :
    ∃ r, value z = .ofRat r ∧ Nearest q r := by
  obtain ⟨r, hr, hz⟩ := h.nearest q rfl
  have hfits : Fits ceiling := ⟨1, 1023, by norm_num, by norm_num, by norm_num [ceiling]⟩
  have hlimit : ceiling < limit := pow_lt_pow_right₀ one_lt_two (by norm_num)
  obtain ⟨hlo, hhi⟩ := abs_le.mp hq
  have hle := (hr.rounds ceiling hfits).1 hhi
  have hge := (hr.rounds (-ceiling) hfits.neg).2 hlo
  rw [overflow_of_lt (by linarith) (by linarith)] at hz
  exact ⟨r, hz, hr⟩

/-- Every double is a multiple of the least one. -/
theorem exists_multiple (hx : value x = .ofRat p) : ∃ n : ℤ, p = n * least :=
  (fits_of_value hx).1.exists_mul fun h => absurd h (lt_irrefl _)

theorem exists_add (hx : value x = .ofRat p) (hy : value y = .ofRat q)
    (hle : |p + q| ≤ ceiling) : ∃ r, value (x + y) = .ofRat r ∧ Nearest (p + q) r ∧
      |r - (p + q)| ≤ roundoff * |p + q| := by
  have hrounded := rounded_add x y
  rw [hx, hy, Exact.ofRat_add] at hrounded
  obtain ⟨r, hr, hnearest⟩ := hrounded.exists_nearest hle
  refine ⟨r, hr, hnearest, hnearest.error_le_of_multiple ?_⟩
  obtain ⟨m, rfl⟩ := exists_multiple hx
  obtain ⟨n, rfl⟩ := exists_multiple hy
  exact ⟨m + n, by push_cast; ring⟩

/-- A sum that does not come out exactly is not one of the smallest doubles. -/
theorem least_le_of_add_ne {r : ℚ} (hx : value x = .ofRat p) (hy : value y = .ofRat q)
    (hr : value (x + y) = .ofRat r) (herror : |r - (p + q)| ≤ roundoff * |p + q|)
    (hne : p + q ≠ r) : least ≤ 2 * (roundoff * |r|) := by
  obtain ⟨k, hk⟩ := exists_multiple hr
  obtain ⟨m, hm⟩ := exists_multiple hx
  obtain ⟨n, hn⟩ := exists_multiple hy
  have hdiff : r - (p + q) = ((k - (m + n) : ℤ) : ℚ) * least := by
    rw [hk, hm, hn]
    push_cast
    ring
  have hint : k - (m + n) ≠ 0 := fun hzero => by
    rw [hzero, Int.cast_zero, zero_mul] at hdiff
    exact hne (sub_eq_zero.mp hdiff).symm
  -- what was rounded away is a multiple of the least double
  have hleast : least ≤ |r - (p + q)| := by
    rw [hdiff, abs_mul, abs_of_pos least_pos, ← Int.cast_abs]
    exact le_mul_of_one_le_left least_pos.le (by exact_mod_cast Int.one_le_abs hint)
  have htriangle := abs_sub_abs_le_abs_sub (p + q) r
  rw [abs_sub_comm] at htriangle
  have hr0 := abs_nonneg r
  unfold roundoff at *
  linarith

theorem exists_sub (hx : value x = .ofRat p) (hy : value y = .ofRat q)
    (hle : |p - q| ≤ ceiling) : ∃ r, value (x - y) = .ofRat r ∧ Nearest (p - q) r ∧
      |r - (p - q)| ≤ roundoff * |p - q| := by
  have hrounded := rounded_sub x y
  rw [hx, hy, Exact.ofRat_sub] at hrounded
  obtain ⟨r, hr, hnearest⟩ := hrounded.exists_nearest hle
  refine ⟨r, hr, hnearest, hnearest.error_le_of_multiple ?_⟩
  obtain ⟨m, rfl⟩ := exists_multiple hx
  obtain ⟨n, rfl⟩ := exists_multiple hy
  exact ⟨m - n, by push_cast; ring⟩

theorem exists_mul (hx : value x = .ofRat p) (hy : value y = .ofRat q)
    (hle : |p * q| ≤ ceiling) : ∃ r, value (x * y) = .ofRat r ∧ Nearest (p * q) r ∧
      |r - p * q| ≤ roundoff * |p * q| + least / 2 := by
  have hrounded := rounded_mul x y
  rw [hx, hy, Exact.ofRat_mul] at hrounded
  obtain ⟨r, hr, hnearest⟩ := hrounded.exists_nearest hle
  exact ⟨r, hr, hnearest, hnearest.error_le⟩

/-- A quotient that is a rational is a rounded one. -/
theorem nearest_of_div {r : ℚ} (hx : value x = .ofRat p) (hy : value y = .ofRat q) (hq : q ≠ 0)
    (hr : value (x / y) = .ofRat r) : Nearest (p / q) r := by
  have hrounded := rounded_div x y (by rw [hy]; exact fun h => hq (Exact.ofRat.inj h))
  rw [hx, hy, Exact.ofRat_div p hq] at hrounded
  obtain ⟨s, hs, hvalue⟩ := hrounded.nearest _ rfl
  rw [hr] at hvalue
  unfold overflow at hvalue
  split_ifs at hvalue
  rwa [Exact.ofRat.inj hvalue]

end

/-! ## Sums of many doubles -/

theorem value_negZero : value (-0.0) = .ofRat 0 := by
  rw [value_neg, value_zero, Exact.neg_ofRat, neg_zero]

theorem abs_sum_map_le {ι : Type} (l : List ι) (q : ι → ℚ) :
    |(l.map q).sum| ≤ (l.map fun i => |q i|).sum := by
  have hle := List.le_sum_of_subadditive (fun x : ℚ => |x|) abs_zero.le abs_add_le (l.map q)
  rwa [List.map_map] at hle

/-- The error of a sum grows with the number of summands and with their sizes. -/
theorem exists_sum {ι : Type} {l : List ι} {f : ι → Float} {q : ι → ℚ} {size : ℚ}
    (hvalues : ∀ i ∈ l, value (f i) = .ofRat (q i)) (hsize : (l.map fun i => |q i|).sum ≤ size)
    (hlength : l.length * roundoff ≤ 1 / 2) (hceiling : 2 * size ≤ ceiling) :
    ∃ r, value (Scalar.sum (l.map f).toArray) = .ofRat r ∧
      |r - (l.map q).sum| ≤ 2 * (l.length * roundoff * size) := by
  unfold Scalar.sum
  rw [List.foldl_toArray]
  induction l using List.reverseRecOn with
  | nil => exact ⟨0, value_negZero, by simp⟩
  | append_singleton rest i ih =>
    obtain ⟨hrest, hlast⟩ := List.forall_mem_append.mp hvalues
    rw [List.map_append, List.sum_append, List.map_singleton, List.sum_singleton] at hsize
    rw [List.length_append, List.length_singleton] at hlength
    push_cast at hlength
    have hpos := roundoff_pos
    have hi := abs_nonneg (q i)
    have htriangle := abs_sum_map_le rest q
    have hsize0 : 0 ≤ size := by linarith [abs_nonneg (rest.map q).sum]
    obtain ⟨r, hr, herror⟩ := ih hrest (by linarith) (by linarith)
    -- the error so far is no more than the size of the summands
    have hsofar : 2 * (rest.length * roundoff * size) ≤ size := by nlinarith
    have hexact : |r + q i| ≤ 2 * size := by
      have hadd := abs_add_le (r - (rest.map q).sum) ((rest.map q).sum + q i)
      have hadd' := abs_add_le (rest.map q).sum (q i)
      rw [show r - (rest.map q).sum + ((rest.map q).sum + q i) = r + q i by ring] at hadd
      linarith
    obtain ⟨r', hr', -, hstep⟩ :=
      exists_add hr (hlast i (List.mem_singleton_self i)) (hexact.trans hceiling)
    refine ⟨r', ?_, ?_⟩
    · rw [List.map_append, List.foldl_append]
      exact hr'
    · rw [List.map_append, List.sum_append, List.map_singleton, List.sum_singleton,
        List.length_append, List.length_singleton]
      push_cast
      have hadd := abs_add_le (r' - (r + q i)) (r - (rest.map q).sum)
      rw [show r' - (r + q i) + (r - (rest.map q).sum) = r' - ((rest.map q).sum + q i) by ring]
        at hadd
      have hmul := mul_le_mul_of_nonneg_left hexact hpos.le
      linarith

end BranchBound.Double
