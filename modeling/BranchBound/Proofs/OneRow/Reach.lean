import BranchBound.Proofs.Double.Accuracy
import BranchBound.Proofs.OneRow.Optimum

/-!
# Columns of doubles

What a column computes with doubles of moderate size (`Column.Measured`). The activity at a finite
bound is the product, rounded (`Column.Meets`), and the value that is written for an activity
strictly between the lowest and the highest is within the bounds (`Measured.between`): rounding
crosses no bound. An activity that is raised from the lowest one and comes to an end of the range by
rounding alone is divided back to the bound, up to a small gap (`Measured.admits_raised`).
-/

namespace BranchBound.OneRow

open Double

/-- How great the finite bounds of a variable in the row may be. -/
def span : ℚ := 2 ^ 30

/-- How far a value may be beyond a bound because of rounding. -/
def gap : ℚ := 9 / 10 ^ 7

/-- Whether a number is within the bounds of a column, or nearly one of them. -/
def Column.Admits (c : Column Float) (x : ℚ) : Prop :=
  (∃ q, Double.value c.lower = .ofRat q ∧ |x - q| ≤ gap) ∨
  (∃ q, Double.value c.upper = .ofRat q ∧ |x - q| ≤ gap) ∨
    (Double.value c.lower ≤ .ofRat x ∧ .ofRat x ≤ Double.value c.upper)

namespace Column

section

variable {α : Type} [Scalar α] (c : Column α)

theorem low_eq : c.low = c.coef * c.value .low := (apply_ite (c.coef * ·) _ _ _).symm

theorem high_eq : c.high = c.coef * c.value .high := (apply_ite (c.coef * ·) _ _ _).symm

theorem value_low_cases : c.value .low = c.lower ∨ c.value .low = c.upper := by
  unfold value
  dsimp only
  split
  · exact Or.inl rfl
  · exact Or.inr rfl

theorem value_high_cases : c.value .high = c.lower ∨ c.value .high = c.upper := by
  unfold value
  dsimp only
  split
  · exact Or.inr rfl
  · exact Or.inl rfl

end

/-- A column of the row with a cost that is valid, and with bounds that leave something on each
side. The finite ones are not too great, and neither are their activities. -/
structure Measured (a w : Nat → ℚ) (c : Column Float) : Prop where
  cost : Double.value c.cost ≠ .nan
  coef : Double.value c.coef = .ofRat (a c.var)
  ne_zero : a c.var ≠ 0
  lower : Double.value c.lower = .negInf ∨
    ∃ q, Double.value c.lower = .ofRat q ∧ |q| ≤ span ∧ |a c.var * q| ≤ w c.var
  upper : Double.value c.upper = .posInf ∨
    ∃ q, Double.value c.upper = .ofRat q ∧ |q| ≤ span ∧ |a c.var * q| ≤ w c.var
  nonneg : 0 ≤ w c.var
  weight : w c.var ≤ ceiling

/-- A finite bound of a column, with the activity there. -/
def Meets (a w : Nat → ℚ) (c : Column Float) (v : Float) (y : ℚ) : Prop :=
  ∃ q, Double.value v = .ofRat q ∧ |q| ≤ span ∧ |a c.var * q| ≤ w c.var ∧
    Nearest (a c.var * q) y

/-- How great the activity of a column at a finite bound may be, after rounding. -/
def reach (w : Nat → ℚ) (c : Column Float) : ℚ := 2 * w c.var + roundoff

/-- How far a product may be from the activity that its value was got from. -/
def rounding (y : ℚ) : ℚ := 3 * (roundoff * |y|) + 8 * roundoff

theorem rounding_nonneg (y : ℚ) : 0 ≤ rounding y := by
  have hpos := roundoff_pos
  have hshare := mul_nonneg hpos.le (abs_nonneg y)
  unfold rounding
  linarith

/-- A level has an activity. The value at the level, if it is finite, is admitted, and its product
with the coefficient is the activity up to rounding. -/
structure Settles (c : Column Float) (level : Level Float) (y : ℚ) : Prop where
  activity : Double.value (c.activity level) = .ofRat y
  written : ∀ ξ, Double.value (c.value level) = .ofRat ξ → c.Admits ξ ∧
    ∃ p, Double.value (c.coef * c.value level) = .ofRat p ∧ |p - y| ≤ rounding y

variable {a w : Nat → ℚ} {c : Column Float} {v : Float} {y : ℚ}

theorem Meets.abs_le (h : c.Meets a w v y) : |y| ≤ c.reach w := by
  obtain ⟨q, -, -, hw, hnearest⟩ := h
  have herror := hnearest.error_le
  have htriangle := abs_sub_abs_le_abs_sub y (a c.var * q)
  have hshare : roundoff * |a c.var * q| ≤ 1 * |a c.var * q| :=
    mul_le_mul_of_nonneg_right (by norm_num [roundoff]) (abs_nonneg _)
  have hleast := least_le_roundoff
  have hpos := least_pos
  unfold reach
  linarith

theorem admits_of_near {q ξ : ℚ} (hv : v = c.lower ∨ v = c.upper) (hq : Double.value v = .ofRat q)
    (hnear : |ξ - q| ≤ gap) : c.Admits ξ := by
  rcases hv with rfl | rfl
  · exact Or.inl ⟨q, hq, hnear⟩
  · exact Or.inr (Or.inl ⟨q, hq, hnear⟩)

/-- A bound itself is admitted. -/
theorem admits_bound {ξ : ℚ} (hv : v = c.lower ∨ v = c.upper) (hξ : Double.value v = .ofRat ξ) :
    c.Admits ξ :=
  admits_of_near hv hξ (by norm_num [gap])

theorem settles_low {lo : ℚ} (hlow : Double.value c.low = .ofRat lo) : c.Settles .low lo where
  activity := hlow
  written ξ hξ := by
    refine ⟨admits_bound c.value_low_cases hξ, lo, by rw [← c.low_eq, hlow], ?_⟩
    rw [sub_self, abs_zero]
    exact rounding_nonneg lo

theorem settles_high {hi : ℚ} (hhigh : Double.value c.high = .ofRat hi) : c.Settles .high hi where
  activity := hhigh
  written ξ hξ := by
    refine ⟨admits_bound c.value_high_cases hξ, hi, by rw [← c.high_eq, hhigh], ?_⟩
    rw [sub_self, abs_zero]
    exact rounding_nonneg hi

namespace Measured

variable (h : c.Measured a w)

include h

theorem zero_lt_coef_iff : (0.0 : Float) < c.coef ↔ 0 < a c.var := by
  rw [lt_iff, value_zero, h.coef, Exact.ofRat_lt]

theorem value_low_of_pos (hpos : 0 < a c.var) : c.value .low = c.lower :=
  if_pos (h.zero_lt_coef_iff.mpr hpos)

theorem value_high_of_pos (hpos : 0 < a c.var) : c.value .high = c.upper :=
  if_pos (h.zero_lt_coef_iff.mpr hpos)

theorem value_low_of_neg (hneg : a c.var < 0) : c.value .low = c.upper :=
  if_neg fun hpos => hneg.not_gt (h.zero_lt_coef_iff.mp hpos)

theorem value_high_of_neg (hneg : a c.var < 0) : c.value .high = c.lower :=
  if_neg fun hpos => hneg.not_gt (h.zero_lt_coef_iff.mp hpos)

theorem exists_meets {q : ℚ} (hv : Double.value v = .ofRat q) (hq : |q| ≤ span)
    (hw : |a c.var * q| ≤ w c.var) :
    ∃ y, Double.value (c.coef * v) = .ofRat y ∧ c.Meets a w v y := by
  obtain ⟨y, hy, hnearest, -⟩ := exists_mul h.coef hv (hw.trans h.weight)
  exact ⟨y, hy, q, hv, hq, hw, hnearest⟩

/-- The activity at an infinite bound is infinite. -/
theorem value_mul_of_infinite {x : Exact} {r : Float}
    (hx : Exact.ofRat (a c.var) * Double.value v = x) (hr : Double.value r = x)
    (hvalid : x ≠ .nan) :
    Double.value (c.coef * v) = x := by
  have hfaithful := (rounded_mul c.coef v).toFaithful
  rw [h.coef, hx] at hfaithful
  exact hfaithful.value_eq hr hvalid

theorem low_cases : Double.value c.low = .negInf ∨ ∃ lo, Double.value c.low = .ofRat lo ∧
    c.Meets a w (c.value .low) lo := by
  rw [c.low_eq]
  rcases lt_or_gt_of_ne h.ne_zero with hneg | hpos
  · rw [h.value_low_of_neg hneg]
    rcases h.upper with hinf | ⟨q, hv, hq, hw⟩
    · exact Or.inl (h.value_mul_of_infinite (by rw [hinf, Exact.mul_posInf_of_neg hneg])
        value_negInf (nomatch ·))
    · exact Or.inr (h.exists_meets hv hq hw)
  · rw [h.value_low_of_pos hpos]
    rcases h.lower with hinf | ⟨q, hv, hq, hw⟩
    · exact Or.inl (h.value_mul_of_infinite (by rw [hinf, Exact.mul_negInf_of_pos hpos])
        value_negInf (nomatch ·))
    · exact Or.inr (h.exists_meets hv hq hw)

theorem high_cases : Double.value c.high = .posInf ∨ ∃ hi, Double.value c.high = .ofRat hi ∧
    c.Meets a w (c.value .high) hi := by
  rw [c.high_eq]
  rcases lt_or_gt_of_ne h.ne_zero with hneg | hpos
  · rw [h.value_high_of_neg hneg]
    rcases h.lower with hinf | ⟨q, hv, hq, hw⟩
    · exact Or.inl (h.value_mul_of_infinite (by rw [hinf, Exact.mul_negInf_of_neg hneg])
        value_posInf (nomatch ·))
    · exact Or.inr (h.exists_meets hv hq hw)
  · rw [h.value_high_of_pos hpos]
    rcases h.upper with hinf | ⟨q, hv, hq, hw⟩
    · exact Or.inl (h.value_mul_of_infinite (by rw [hinf, Exact.mul_posInf_of_pos hpos])
        value_posInf (nomatch ·))
    · exact Or.inr (h.exists_meets hv hq hw)

/-- A product that is on one side of an activity after rounding was so before. -/
theorem mul_le_of_lt {t : Float} {η : ℚ} (ht : Double.value t = .ofRat η) (hlt : c.coef * v < t) :
    Exact.ofRat (a c.var) * Double.value v ≤ .ofRat η := by
  have hfaithful := (rounded_mul c.coef v).toFaithful
  rw [h.coef] at hfaithful
  rw [lt_iff] at hlt
  refine Exact.le_of_not_lt (fun hnan => ?_) (nomatch ·) fun hgt => ?_
  · rw [hfaithful.nan_iff.mpr hnan] at hlt
    exact Exact.not_nan_lt _ hlt
  · rw [← ht] at hgt
    exact Exact.not_lt_of_le (hfaithful.ge_of_ge t (Exact.le_of_lt hgt)) hlt

theorem le_mul_of_lt {t : Float} {η : ℚ} (ht : Double.value t = .ofRat η) (hlt : t < c.coef * v) :
    .ofRat η ≤ Exact.ofRat (a c.var) * Double.value v := by
  have hfaithful := (rounded_mul c.coef v).toFaithful
  rw [h.coef] at hfaithful
  rw [lt_iff] at hlt
  refine Exact.le_of_not_lt (nomatch ·) (fun hnan => ?_) fun hgt => ?_
  · rw [hfaithful.nan_iff.mpr hnan] at hlt
    exact Exact.not_lt_nan _ hlt
  · rw [← ht] at hgt
    exact Exact.not_lt_of_le (hfaithful.le_of_le t (Exact.le_of_lt hgt)) hlt

/-- An activity strictly between the lowest and the highest is that of a value within the bounds. -/
theorem between {t : Float} {η ξ : ℚ} (ht : Double.value t = .ofRat η)
    (hx : Double.value (t / c.coef) = .ofRat ξ) (hlow : c.low < t) (hhigh : t < c.high) :
    Double.value c.lower ≤ .ofRat ξ ∧ .ofRat ξ ≤ Double.value c.upper := by
  have hne := h.ne_zero
  have hdiv := (rounded_div t c.coef (by
    rw [h.coef]
    exact fun hzero => hne (Exact.ofRat.inj hzero))).toFaithful
  rw [ht, h.coef, Exact.ofRat_div _ hne] at hdiv
  have hscaled : Exact.ofRat η = Exact.ofRat (a c.var) * .ofRat (η / a c.var) := by
    rw [Exact.ofRat_mul, mul_div_cancel₀ η hne]
  rw [c.low_eq] at hlow
  rw [c.high_eq] at hhigh
  rw [← hx]
  rcases lt_or_gt_of_ne hne with hneg | hpos
  · rw [h.value_low_of_neg hneg] at hlow
    rw [h.value_high_of_neg hneg] at hhigh
    have hupper := h.mul_le_of_lt ht hlow
    have hlower := h.le_mul_of_lt ht hhigh
    rw [hscaled, Exact.mul_le_mul_of_neg hneg] at hupper hlower
    exact ⟨hdiv.ge_of_ge _ hlower, hdiv.le_of_le _ hupper⟩
  · rw [h.value_low_of_pos hpos] at hlow
    rw [h.value_high_of_pos hpos] at hhigh
    have hlower := h.mul_le_of_lt ht hlow
    have hupper := h.le_mul_of_lt ht hhigh
    rw [hscaled, Exact.mul_le_mul_of_pos hpos] at hlower hupper
    exact ⟨hdiv.ge_of_ge _ hlower, hdiv.le_of_le _ hupper⟩

/-- An activity at a bound that is not one of the smallest doubles is divided back to the bound,
up to a gap. -/
theorem abs_sub_le_gap {t : Float} {q y ξ : ℚ} (hq : |q| ≤ span)
    (hnearest : Nearest (a c.var * q) y) (hy : least ≤ 2 * (roundoff * |y|))
    (ht : Double.value t = .ofRat y) (hx : Double.value (t / c.coef) = .ofRat ξ) :
    |ξ - q| ≤ gap := by
  have hne := h.ne_zero
  have hquotient := (nearest_of_div ht h.coef hne hx).error_le
  have hproduct := hnearest.error_le
  have hleast := least_le_roundoff
  -- divided by the coefficient, the error of the product is one of the bound
  have hback : |y / a c.var - q| ≤ roundoff * |q| + roundoff * |y / a c.var| := by
    have hpos := abs_pos.mpr hne
    have hdiff : |y - a c.var * q| = |a c.var| * |y / a c.var - q| := by
      rw [← abs_mul, mul_sub, mul_div_cancel₀ y hne]
    have hy' : |y| = |a c.var| * |y / a c.var| := by
      rw [← abs_mul, mul_div_cancel₀ y hne]
    rw [hdiff, abs_mul] at hproduct
    rw [hy'] at hy
    refine le_of_mul_le_mul_left ?_ hpos
    linarith
  generalize y / a c.var = ρ at *
  have hρ := abs_sub_abs_le_abs_sub ρ q
  have htriangle := abs_sub_le ξ ρ q
  unfold roundoff span gap at *
  linarith

/-- A lowest activity that is raised, and not up to the highest one, is that of a value within the
bounds, or nearly one of them. -/
theorem admits_raised {s : Float} {lo σ ξ : ℚ} (hlow : Double.value c.low = .ofRat lo)
    (hs : Double.value s = .ofRat σ) (hpos : 0 < σ) (hroom : ¬c.high - c.low ≤ s)
    (hle : |lo + σ| ≤ ceiling) (hx : Double.value ((c.low + s) / c.coef) = .ofRat ξ) :
    c.Admits ξ := by
  obtain ⟨η, hη, hnearest, herror⟩ := exists_add hlow hs hle
  have hlo : lo ≤ η := (hnearest.rounds lo (fits_of_value hlow).1).2 (by linarith)
  obtain ⟨lo', hlow', q, hq, hspan, -, hproduct⟩ := h.low_cases.resolve_left fun hinf => by
    rw [hlow] at hinf
    cases hinf
  obtain rfl : lo = lo' := Exact.ofRat.inj (hlow.symm.trans hlow')
  rcases hlo.eq_or_lt with rfl | hlo
  · exact admits_of_near c.value_low_cases hq
      (h.abs_sub_le_gap hspan hproduct (least_le_of_add_ne hlow hs hη herror (by linarith)) hη
        hx)
  have hlt : c.low < c.low + s := by
    rw [lt_iff, hlow, hη, Exact.ofRat_lt]
    exact hlo
  rcases h.high_cases with hinf | ⟨hi, hhigh, q', hq', hspan', -, hproduct'⟩
  · refine Or.inr (Or.inr (h.between hη hx hlt ?_))
    rw [lt_iff, hη, hinf]
    exact Exact.ofRat_lt_posInf η
  · have hbelow : lo + σ < hi := by
      by_contra hge
      have hfaithful := (rounded_sub c.high c.low).toFaithful
      rw [hlow, hhigh, Exact.ofRat_sub] at hfaithful
      refine hroom ((le_iff _ _).mpr (hfaithful.le_of_le s ?_))
      rw [hs, Exact.ofRat_le]
      linarith
    have hhi : η ≤ hi := (hnearest.rounds hi (fits_of_value hhigh).1).1 hbelow.le
    rcases hhi.eq_or_lt with rfl | hhi
    · exact admits_of_near c.value_high_cases hq'
        (h.abs_sub_le_gap hspan' hproduct' (least_le_of_add_ne hlow hs hη herror hbelow.ne) hη hx)
    · refine Or.inr (Or.inr (h.between hη hx hlt ?_))
      rw [lt_iff, hη, hhigh, Exact.ofRat_lt]
      exact hhi

/-- What is divided by the coefficient is nearly had back from the product. -/
theorem settles_at {t : Float} {y : ℚ} (ht : Double.value t = .ofRat y)
    (hle : 2 * |y| + 1 ≤ ceiling)
    (hadmits : ∀ ξ, Double.value (t / c.coef) = .ofRat ξ → c.Admits ξ) : c.Settles (.at t) y where
  activity := ht
  written ξ hξ := by
    have hne := h.ne_zero
    have hquotient := (nearest_of_div ht h.coef hne hξ).error_le
    have hcoef : |a c.var| ≤ limit := (abs_lt.mpr (fits_of_value h.coef).2).le
    -- times the coefficient, the error of the quotient is one of the activity
    have hback : |a c.var * ξ - y| ≤ roundoff * |y| + 4 * roundoff := by
      have hdiff : a c.var * ξ - y = a c.var * (ξ - y / a c.var) := by
        rw [mul_sub, mul_div_cancel₀ y hne]
      have hy : |y| = |a c.var| * |y / a c.var| := by
        rw [← abs_mul, mul_div_cancel₀ y hne]
      have hleast := mul_le_mul_of_nonneg_right hcoef least_pos.le
      rw [limit_mul_least] at hleast
      have hscaled := mul_le_mul_of_nonneg_left hquotient (abs_nonneg (a c.var))
      rw [hdiff, abs_mul, hy]
      linarith
    have hproduct : |a c.var * ξ| ≤ 2 * |y| + 8 * roundoff := by
      have htriangle := abs_sub_abs_le_abs_sub (a c.var * ξ) y
      have hpos := abs_nonneg y
      unfold roundoff at *
      linarith
    obtain ⟨p, hp, -, herror⟩ := exists_mul h.coef hξ
      (hproduct.trans (le_trans (by norm_num [roundoff]) hle))
    refine ⟨hadmits ξ hξ, p, hp, ?_⟩
    have htriangle := abs_sub_le p (a c.var * ξ) y
    have hleast := least_le_roundoff
    have hshare := mul_le_mul_of_nonneg_left hproduct roundoff_pos.le
    have hpos := roundoff_pos
    have hsquare : roundoff * (8 * roundoff) ≤ roundoff := by norm_num [roundoff]
    unfold rounding
    linarith

theorem valid_gain : Double.value c.gain ≠ .nan := by
  have hne : Double.value c.coef ≠ .ofRat 0 := fun hzero => h.ne_zero (by
    rw [h.coef] at hzero
    exact Exact.ofRat.inj hzero)
  have hcost := h.cost
  rw [Ne, Column.gain, (rounded_div (-c.cost) c.coef hne).nan_iff, value_neg, h.coef]
  cases hd : Double.value c.cost with
  | nan => exact absurd hd hcost
  | ofRat q =>
    rw [Exact.neg_ofRat, Exact.ofRat_div _ h.ne_zero]
    exact (nomatch ·)
  | posInf | negInf =>
    show (if a c.var < 0 then _ else _) ≠ Exact.nan
    split <;> exact (nomatch ·)

end Measured

end Column

end BranchBound.OneRow
