import BranchBound.Proofs.Bounding

/-!
# Thresholds of lawful numbers

What rounding leaves of the bounding rules. Numbers are compared exactly, so only the threshold
itself is rounded:

* Without a gap it has the value of the incumbent (`Criteria.value_threshold`).
* With usable gaps it is as good as an incumbent that beats anything
  (`Criteria.threshold_noWorse_of_better`).

A threshold that is rounded need not get better with its incumbent. What a search may rely on is
that an incumbent was found within the threshold of the one before it: then it prunes and excludes
all that the old one did (`Criteria.Surpasses`).
-/

namespace BranchBound

open Lawful

variable {α : Type} [Scalar α] [Lawful α]

/-! ## Gaps -/

namespace Criteria

variable {c : Criteria α} {best : α}

/-- The gap is the share of the incumbent or the fixed amount, and valid if that is. -/
theorem gap_cases (best : α) (h : value c.absoluteGap ≠ .nan) :
    c.gap best = c.absoluteGap ∨
      c.gap best = Scalar.abs (best * c.relativeGap) ∧ value (c.gap best) ≠ .nan := by
  unfold gap Scalar.maxNum
  split
  · exact Or.inl rfl
  · rename_i hvalid
    rw [isNaN_eq, Bool.not_eq_true, Exact.isNaN_eq_false_iff] at hvalid
    split
    · rename_i hnan
      rw [isNaN_eq, Exact.isNaN_eq_false_iff.mpr h] at hnan
      cases hnan
    · split
      · exact Or.inr ⟨rfl, hvalid⟩
      · exact Or.inl rfl

theorem gap_nonneg (best : α) (ha : Settings.Usable c.absoluteGap) :
    Exact.ofRat 0 ≤ value (c.gap best) := by
  obtain ⟨a, ha, ha0⟩ := ha.exists_rat
  rcases gap_cases best (by rw [ha]; simp) with h | ⟨h, hvalid⟩
  · rw [h, ha, Exact.ofRat_le]
    exact ha0
  · rw [h, value_abs] at hvalid ⊢
    exact Exact.abs_nonneg_of_valid hvalid

theorem value_gap (hg : value c.relativeGap = .ofRat 0) (ha : value c.absoluteGap = .ofRat 0) :
    value (c.gap best) = .ofRat 0 := by
  rcases gap_cases best (by rw [ha]; simp) with h | ⟨h, hvalid⟩
  · rw [h, ha]
  · -- a share of nothing is nothing, or invalid if the incumbent is infinite
    have hmul := faithful_mul best c.relativeGap
    rw [hg] at hmul
    rw [h, value_abs] at hvalid ⊢
    cases hb : value best with
    | ofRat q =>
      rw [hb, Exact.ofRat_mul, mul_zero] at hmul
      rw [hmul.value_eq value_zero (nomatch ·), Exact.abs_ofRat, abs_zero]
    | posInf | negInf | nan =>
      rw [hb] at hmul
      rw [hmul.nan_iff.mpr rfl] at hvalid
      exact absurd rfl hvalid

/-! ## Thresholds -/

/-- Without a gap the threshold has the value of the incumbent. -/
theorem value_threshold (hg : value c.relativeGap = .ofRat 0)
    (ha : value c.absoluteGap = .ofRat 0) : value (c.threshold best) = value best := by
  have hsame : ∀ {x : Exact} {r : α}, Faithful value x r → x = value best →
      value r = value best := by
    rintro x r h rfl
    by_cases hnan : value best = .nan
    · rw [h.nan_iff.mpr hnan, hnan]
    · exact h.value_eq rfl hnan
  unfold threshold
  cases c.sense with
  | minimise =>
    refine hsame (faithful_sub best _) ?_
    rw [value_gap hg ha, Exact.sub_zero]
  | maximise =>
    refine hsame (faithful_add best _) ?_
    rw [value_gap hg ha, Exact.add_zero]

/-- The threshold is as good as an incumbent that beats anything. -/
theorem threshold_noWorse_of_better (ha : Settings.Usable c.absoluteGap) {old : α}
    (h : c.sense.better best old = true) : c.sense.noWorse (c.threshold best) best := by
  have hgap := gap_nonneg best ha
  rw [Sense.better_iff] at h
  unfold threshold
  cases hs : c.sense with
  | minimise =>
    rw [hs, Sense.better_iff_minimise] at h
    exact (le_iff _ _).mpr ((faithful_sub best _).le_of_le best (Exact.sub_le hgap h))
  | maximise =>
    rw [hs, Sense.better_iff_maximise] at h
    exact (le_iff _ _).mpr ((faithful_add best _).ge_of_ge best (Exact.le_add hgap h))

/-! ## One incumbent after another -/

/-- Whether a value takes the place of another one as the incumbent: it beats it, and is not beyond
its threshold. -/
structure Surpasses (c : Criteria α) (new old : α) : Prop where
  better : c.sense.better new old = true
  within : c.sense.better (c.threshold old) new = false

variable {new old objective : α}

/-- The threshold of a new incumbent is as good as that of the old one, if that is valid. -/
theorem Surpasses.threshold_noWorse (h : c.Surpasses new old)
    (ha : Settings.Usable c.absoluteGap) (hvalid : value (c.threshold old) ≠ .nan) :
    c.sense.noWorse (value (c.threshold new)) (value (c.threshold old)) := by
  have hnew := threshold_noWorse_of_better ha h.better
  have hwithin := h.within
  rw [Sense.noWorse_iff] at hnew
  rw [Sense.better_iff] at hwithin
  -- the new incumbent lies between the two thresholds
  exact Sense.noWorse_trans hnew
    (Sense.noWorse_of_not_better (Sense.valid_of_noWorse hnew).2 hvalid hwithin)

/-- What may improve on the new incumbent might improve on the old one. -/
theorem Surpasses.mayImprove (h : c.Surpasses new old) (ha : Settings.Usable c.absoluteGap)
    (hnew : c.mayImprove objective (some new) = true) :
    c.mayImprove objective (some old) = true := by
  cases hold : c.mayImprove objective (some old) with
  | true => rfl
  | false =>
    rw [mayImprove_eq_false_iff, Sense.noWorse_iff] at hold
    have hthreshold := h.threshold_noWorse ha (Sense.valid_of_noWorse hold).1
    have hnot : c.mayImprove objective (some new) = false := by
      rw [mayImprove_eq_false_iff, Sense.noWorse_iff]
      exact Sense.noWorse_trans hthreshold hold
    rw [hnot] at hnew
    cases hnew

/-- What is within the threshold of the new incumbent is within that of the old one. -/
theorem Surpasses.not_better_threshold (h : c.Surpasses new old)
    (ha : Settings.Usable c.absoluteGap)
    (hnew : c.sense.better (c.threshold new) objective = false) :
    c.sense.better (c.threshold old) objective = false := by
  cases hold : c.sense.better (c.threshold old) objective with
  | false => rfl
  | true =>
    rw [Sense.better_iff] at hold
    have hthreshold :=
      h.threshold_noWorse ha (Sense.valid_of_noWorse (Sense.noWorse_of_better hold)).1
    rw [Sense.better_iff, Sense.better_of_noWorse_of_better hthreshold hold] at hnew
    cases hnew

/-- What beats an incumbent that took the place of another one does so too. -/
theorem Surpasses.of_better (h : c.Surpasses new old) {newer : α}
    (hnewer : c.sense.better newer new = true) : c.Surpasses newer old := by
  refine ⟨Sense.better_trans hnewer h.better, ?_⟩
  cases hold : c.sense.better (c.threshold old) newer with
  | false => rfl
  | true =>
    have hwithin := h.within
    rw [Sense.better_trans hold hnewer] at hwithin
    cases hwithin

end Criteria

end BranchBound
