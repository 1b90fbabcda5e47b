import BranchBound.Proofs.Lawful
import BranchBound.Scoreboard

/-!
# Bounding

When a value needs no further look because of the incumbent. Lawful numbers compare as their exact
values do, so the rules of comparing, offering and excluding hold of them all. What the gap closes
is said in exact arithmetic.

A value is *closed* by an incumbent if it is not better than the incumbent, or not better than the
threshold that the gap puts before it (`Criteria.Closes`). For a finite incumbent the second says it
all; at infinite ones the threshold may be the invalid number.

`Criteria.closes_of_better` says that an incumbent closes what a worse one closed. It needs a
relative gap of one at most: with a greater one the threshold may fall as the incumbent improves.
-/

namespace BranchBound

open Scalar

/-! ## Senses -/

namespace Sense

/-- Whether `a` is as good as `b` or better. -/
def noWorse {α : Type} [Scalar α] (sense : Sense) (a b : α) : Prop :=
  match sense with
  | minimise => a ≤ b
  | maximise => b ≤ a

variable {sense : Sense} {a b c : Exact}

theorem noWorse_refl (h : a ≠ .nan) : sense.noWorse a a := by
  cases sense <;> exact Exact.le_refl_of_valid h

theorem noWorse_trans (hab : sense.noWorse a b) (hbc : sense.noWorse b c) :
    sense.noWorse a c := by
  cases sense with
  | minimise => exact Exact.le_trans hab hbc
  | maximise => exact Exact.le_trans hbc hab

theorem noWorse_antisymm (hab : sense.noWorse a b) (hba : sense.noWorse b a) : a = b := by
  cases sense with
  | minimise => exact Exact.le_antisymm hab hba
  | maximise => exact Exact.le_antisymm hba hab

theorem valid_of_noWorse (h : sense.noWorse a b) : a ≠ .nan ∧ b ≠ .nan := by
  cases sense with
  | minimise => exact Exact.valid_of_le h
  | maximise => exact (Exact.valid_of_le h).symm

theorem better_iff_minimise : minimise.better a b = true ↔ a < b := decide_eq_true_iff

theorem better_iff_maximise : maximise.better a b = true ↔ b < a := decide_eq_true_iff

theorem better_irrefl (a : Exact) : sense.better a a = false := by
  cases sense <;> exact decide_eq_false (Exact.lt_irrefl a)

theorem not_nan_better (a : Exact) : sense.better .nan a = false := by
  cases sense with
  | minimise => exact decide_eq_false (Exact.not_nan_lt a)
  | maximise => exact decide_eq_false (Exact.not_lt_nan a)

theorem noWorse_of_better (h : sense.better a b = true) : sense.noWorse a b := by
  cases sense with
  | minimise => exact Exact.le_of_lt (better_iff_minimise.mp h)
  | maximise => exact Exact.le_of_lt (better_iff_maximise.mp h)

theorem better_of_noWorse_of_better (hab : sense.noWorse a b) (hbc : sense.better b c = true) :
    sense.better a c = true := by
  cases sense with
  | minimise =>
    exact better_iff_minimise.mpr (Exact.lt_of_le_of_lt hab (better_iff_minimise.mp hbc))
  | maximise =>
    exact better_iff_maximise.mpr (Exact.lt_of_lt_of_le (better_iff_maximise.mp hbc) hab)

theorem better_of_better_of_noWorse (hab : sense.better a b = true) (hbc : sense.noWorse b c) :
    sense.better a c = true := by
  cases sense with
  | minimise =>
    exact better_iff_minimise.mpr (Exact.lt_of_lt_of_le (better_iff_minimise.mp hab) hbc)
  | maximise =>
    exact better_iff_maximise.mpr (Exact.lt_of_le_of_lt hbc (better_iff_maximise.mp hab))

theorem not_better_of_noWorse (h : sense.noWorse a b) : sense.better b a = false := by
  cases hb : sense.better b a with
  | false => rfl
  | true =>
    have hbb : sense.better b b = true := better_of_better_of_noWorse hb h
    rw [better_irrefl] at hbb
    exact hbb.symm

theorem noWorse_of_not_better (ha : a ≠ .nan) (hb : b ≠ .nan) (h : sense.better b a = false) :
    sense.noWorse a b := by
  cases sense with
  | minimise => exact Exact.le_of_not_lt ha hb (of_decide_eq_false h)
  | maximise => exact Exact.le_of_not_lt hb ha (of_decide_eq_false h)

theorem not_better_best (a : Exact) : sense.better a sense.best = false := by
  cases sense with
  | minimise => exact decide_eq_false (Exact.not_lt_negInf a)
  | maximise => exact decide_eq_false (Exact.not_posInf_lt a)

section

variable {α : Type} [Scalar α] [Lawful α] {a b c : α}

open Lawful

/-! Lawful numbers are compared by their values. -/

theorem better_iff : sense.better a b = sense.better (value a) (value b) := by
  cases sense with
  | minimise => exact decide_eq_decide.mpr (lt_iff a b)
  | maximise => exact decide_eq_decide.mpr (lt_iff b a)

theorem noWorse_iff : sense.noWorse a b ↔ sense.noWorse (value a) (value b) := by
  cases sense with
  | minimise => exact le_iff a b
  | maximise => exact le_iff b a

theorem better_trans (hab : sense.better a b = true) (hbc : sense.better b c = true) :
    sense.better a c = true := by
  rw [better_iff] at hab hbc ⊢
  exact better_of_better_of_noWorse hab (noWorse_of_better hbc)

theorem not_better_self (a : α) : sense.better a a = false := by
  rw [better_iff]
  exact better_irrefl (value a)

end

end Sense

/-! ## Cutoffs -/

namespace Cutoff

/-- Whether a cutoff excludes values on the side that is bad for a sense. -/
def Suits {α : Type} (cutoff : Cutoff α) (sense : Sense) : Prop :=
  match cutoff with
  | upper _ => sense = .minimise
  | lower _ => sense = .maximise

/-- What is no better than an excluded value is excluded. -/
theorem excludes_of_noWorse {sense : Sense} {limit : Cutoff Exact} {a b : Exact}
    (hsuits : limit.Suits sense) (hab : sense.noWorse a b) (h : limit.excludes a = true) :
    limit.excludes b = true := by
  cases limit with
  | upper value =>
    obtain rfl : sense = .minimise := hsuits
    exact decide_eq_true (Exact.lt_of_lt_of_le (of_decide_eq_true h) hab)
  | lower value =>
    obtain rfl : sense = .maximise := hsuits
    exact decide_eq_true (Exact.lt_of_le_of_lt hab (of_decide_eq_true h))

end Cutoff

/-! ## Checked settings -/

namespace Settings

/-- A usable tolerance is a rational that is not negative. -/
theorem Usable.exists_rat {α : Type} [Scalar α] [Lawful α] {value : α} (h : Usable value) :
    ∃ q : ℚ, Lawful.value value = .ofRat q ∧ 0 ≤ q := by
  obtain ⟨hfinite, hnonneg⟩ := h
  rw [Lawful.isFinite_eq] at hfinite
  obtain ⟨q, hq⟩ := Exact.isFinite_iff.mp hfinite
  rw [Lawful.lt_iff, hq, Lawful.value_zero, Exact.ofRat_lt, not_lt] at hnonneg
  exact ⟨q, hq, hnonneg⟩

/-- Checked settings have rational tolerances that are not negative, and report at some
frequency. -/
theorem of_check {s : Settings Exact} (h : s.check = .ok ()) :
    (∃ g : ℚ, s.relativeGap = .ofRat g ∧ 0 ≤ g) ∧ (∃ a : ℚ, s.absoluteGap = .ofRat a ∧ 0 ≤ a) ∧
      (∃ t : ℚ, s.integrality = .ofRat t ∧ 0 ≤ t) ∧ s.logFrequency ≠ 0 := by
  obtain ⟨hrelative, habsolute, hintegrality, -, hlog⟩ := check_eq_ok_iff.mp h
  exact ⟨hrelative.exists_rat, habsolute.exists_rat, hintegrality.exists_rat, hlog⟩

theorem integrality_nonneg {α : Type} [Scalar α] [Lawful α] {s : Settings α}
    (h : s.check = .ok ()) : Exact.ofRat 0 ≤ Lawful.value s.integrality := by
  obtain ⟨-, -, hintegrality, -⟩ := check_eq_ok_iff.mp h
  obtain ⟨t, ht, ht0⟩ := hintegrality.exists_rat
  rw [ht, Exact.ofRat_le]
  exact ht0

theorem relativeGap_le_one {s : Settings Exact} (h : s.relativeGap = .ofRat 0) :
    s.relativeGap ≤ .ofRat 1 := by
  rw [h, Exact.ofRat_le]
  norm_num

end Settings

/-! ## Thresholds -/

namespace Criteria

section

variable {α : Type} [Scalar α] {c : Criteria α}

theorem mayImprove_eq_false_iff {best value : α} :
    c.mayImprove value (some best) = false ↔ c.sense.noWorse (c.threshold best) value := by
  unfold mayImprove Sense.noWorse
  cases c.sense <;> simp

/-- The cutoff excludes what the threshold is better than. -/
theorem excludes_cutoff {best value : α} {limit : Cutoff α}
    (h : c.cutoff? (some best) = some limit) :
    limit.excludes value = c.sense.better (c.threshold best) value := by
  unfold cutoff? at h
  rw [← Option.some.inj h]
  cases c.sense <;> rfl

/-- The cutoff is on the side that is bad for the sense of the criteria. -/
theorem suits_cutoff {best : Option α} {limit : Cutoff α}
    (h : c.cutoff? best = some limit) : limit.Suits c.sense := by
  unfold cutoff? at h
  obtain ⟨value, -, rfl⟩ := Option.map_eq_some_iff.mp h
  cases hs : c.sense <;> rfl

end

variable {c : Criteria Exact}

theorem gap_ofRat {g a : ℚ} (hg : c.relativeGap = .ofRat g) (ha : c.absoluteGap = .ofRat a)
    (q : ℚ) : c.gap (.ofRat q) = .ofRat (max |q * g| a) := by
  unfold gap
  rw [hg, ha, Exact.ofRat_mul, Exact.abs_ofRat, Exact.maxNum_ofRat]

/-- Without a gap the threshold is the incumbent itself. -/
theorem threshold_of_noGap (hg : c.relativeGap = .ofRat 0) (ha : c.absoluteGap = .ofRat 0)
    (best : Exact) : c.threshold best = best := by
  have hgap : c.gap best = .ofRat 0 := by
    cases best with
    | ofRat q => rw [gap_ofRat hg ha, mul_zero, abs_zero, max_self]
    | posInf | negInf | nan =>
      unfold gap
      rw [hg, ha]
      rfl
  unfold threshold
  rw [hgap]
  cases best <;> cases c.sense <;> first | rfl | simp

/-- Lowering an incumbent lowers what is left of it after the gap. -/
theorem sub_gap_mono {g a p q : ℚ} (hg0 : 0 ≤ g) (hg1 : g ≤ 1) (hpq : p ≤ q) :
    p - max |p * g| a ≤ q - max |q * g| a := by
  have hdist : |q * g| ≤ |p * g| + (q - p) := by
    have htri : |q * g| - |p * g| ≤ |q * g - p * g| := abs_sub_abs_le_abs_sub _ _
    have hdiff : |q * g - p * g| ≤ q - p := by
      rw [← sub_mul, abs_of_nonneg (mul_nonneg (by linarith) hg0)]
      exact mul_le_of_le_one_right (by linarith) hg1
    linarith
  have hmax : max |q * g| a ≤ max |p * g| a + (q - p) := by
    refine max_le ?_ ?_
    · linarith [le_max_left |p * g| a]
    · linarith [le_max_right |p * g| a]
  linarith

/-- Raising an incumbent raises it with the gap on top. -/
theorem add_gap_mono {g a p q : ℚ} (hg0 : 0 ≤ g) (hg1 : g ≤ 1) (hpq : p ≤ q) :
    p + max |p * g| a ≤ q + max |q * g| a := by
  have h := sub_gap_mono (a := a) hg0 hg1 (neg_le_neg hpq)
  rw [neg_mul, neg_mul, abs_neg, abs_neg] at h
  linarith

/-- The threshold of a rational is as good if the rational is. -/
theorem threshold_noWorse_of_noWorse {g a p q : ℚ} (hg : c.relativeGap = .ofRat g)
    (ha : c.absoluteGap = .ofRat a) (hg0 : 0 ≤ g) (hg1 : g ≤ 1)
    (h : c.sense.noWorse (Exact.ofRat p) (Exact.ofRat q)) :
    c.sense.noWorse (c.threshold (.ofRat p)) (c.threshold (.ofRat q)) := by
  unfold threshold
  rw [gap_ofRat hg ha, gap_ofRat hg ha]
  cases hs : c.sense with
  | minimise =>
    rw [hs] at h
    simpa [Sense.noWorse] using sub_gap_mono hg0 hg1 ((Exact.ofRat_le p q).mp h)
  | maximise =>
    rw [hs] at h
    simpa [Sense.noWorse] using add_gap_mono hg0 hg1 ((Exact.ofRat_le q p).mp h)

/-- The gap of a number that is not finite is infinite, or all of it is the fixed amount. -/
theorem gap_of_not_finite {g a : ℚ} (hg : c.relativeGap = .ofRat g)
    (ha : c.absoluteGap = .ofRat a) (hg0 : 0 ≤ g) {best : Exact}
    (hbest : Scalar.isFinite best = false) : c.gap best = .ofRat a ∨ c.gap best = .posInf := by
  -- infinity times a gap of zero is no number
  have htimes : Exact.infTimes g = .nan ∨ Exact.infTimes g = .posInf := by
    unfold Exact.infTimes
    split
    · exact Or.inl rfl
    · rename_i hne
      rw [if_pos (lt_of_le_of_ne hg0 (Ne.symm hne))]
      exact Or.inr rfl
  have hprod : Scalar.abs (best * Exact.ofRat g) = .nan ∨
      Scalar.abs (best * Exact.ofRat g) = .posInf := by
    cases best with
    | ofRat q => cases hbest
    | nan => exact Or.inl rfl
    | posInf =>
      show Exact.abs (Exact.infTimes g) = _ ∨ Exact.abs (Exact.infTimes g) = _
      rcases htimes with h | h <;> rw [h] <;> simp [Exact.abs]
    | negInf =>
      show Exact.abs (Exact.infTimes g).neg = _ ∨ Exact.abs (Exact.infTimes g).neg = _
      rcases htimes with h | h <;> rw [h] <;> simp [Exact.abs, Exact.neg]
  unfold gap
  rw [hg, ha]
  rcases hprod with h | h <;> rw [h]
  · exact Or.inl rfl
  · exact Or.inr rfl

/-- At a number that is not finite there is no room for a gap. -/
theorem threshold_of_not_finite {g a : ℚ} (hg : c.relativeGap = .ofRat g)
    (ha : c.absoluteGap = .ofRat a) (hg0 : 0 ≤ g) {best : Exact}
    (hbest : Scalar.isFinite best = false) :
    c.threshold best = best ∨ c.threshold best = .nan := by
  unfold threshold
  rcases gap_of_not_finite hg ha hg0 hbest with h | h <;> rw [h] <;> cases c.sense <;>
    cases best <;> first | exact Or.inl rfl | exact Or.inr rfl | cases hbest

/-- A threshold that is a number is as good as its incumbent. -/
theorem threshold_noWorse {g a : ℚ} (hg : c.relativeGap = .ofRat g)
    (ha : c.absoluteGap = .ofRat a) (hg0 : 0 ≤ g) {best : Exact} (hbest : best ≠ .nan) :
    c.threshold best = .nan ∨ c.sense.noWorse (c.threshold best) best := by
  cases hf : Scalar.isFinite best with
  | false =>
    rcases threshold_of_not_finite hg ha hg0 hf with h | h
    · rw [h]
      exact Or.inr (Sense.noWorse_refl hbest)
    · exact Or.inl h
  | true =>
    obtain ⟨q, rfl⟩ := Exact.isFinite_iff.mp hf
    refine Or.inr ?_
    have hgap : 0 ≤ max |q * g| a := le_max_of_le_left (abs_nonneg _)
    unfold threshold Sense.noWorse
    rw [gap_ofRat hg ha]
    cases c.sense with
    | minimise => simpa using hgap
    | maximise => simpa using hgap

/-! ## Closed values -/

/-- A value that needs no further look: it does not beat the incumbent, or not by the gap. -/
def Closes (c : Criteria Exact) (best value : Exact) : Prop :=
  c.sense.better value best = false ∨ c.sense.noWorse (c.threshold best) value

/-- An incumbent closes what a worse one closed. -/
theorem closes_of_better {g a : ℚ} (hg : c.relativeGap = .ofRat g) (ha : c.absoluteGap = .ofRat a)
    (hg0 : 0 ≤ g) (hg1 : g ≤ 1) {best best' value : Exact}
    (hbetter : c.sense.better best' best = true) (h : c.Closes best value) :
    c.Closes best' value := by
  -- what does not beat an incumbent does not beat a better one
  have htrans : c.sense.better value best = false → c.sense.better value best' = false := by
    intro hnot
    cases hv : c.sense.better value best' with
    | false => rfl
    | true =>
      rw [Sense.better_of_better_of_noWorse hv (Sense.noWorse_of_better hbetter)] at hnot
      exact hnot
  rcases h with hnot | hthr
  · exact Or.inl (htrans hnot)
  · -- the threshold of an infinite incumbent is the incumbent itself or no number
    cases hf : Scalar.isFinite best with
    | false =>
      rcases threshold_of_not_finite hg ha hg0 hf with h | h <;> rw [h] at hthr
      · exact Or.inl (htrans (Sense.not_better_of_noWorse hthr))
      · exact absurd rfl (Sense.valid_of_noWorse hthr).1
    | true =>
      obtain ⟨q, rfl⟩ := Exact.isFinite_iff.mp hf
      cases hf' : Scalar.isFinite best' with
      | true =>
        obtain ⟨p, rfl⟩ := Exact.isFinite_iff.mp hf'
        have hthreshold := threshold_noWorse_of_noWorse hg ha hg0 hg1
          (Sense.noWorse_of_better hbetter)
        exact Or.inr (Sense.noWorse_trans hthreshold hthr)
      | false =>
        -- an infinite incumbent that beats a finite one is the best value there is
        have hbest : best' = c.sense.best := by
          revert hbetter
          cases c.sense <;> cases best' <;> simp_all [Sense.better, Sense.best] <;> rfl
        rw [hbest]
        exact Or.inl (Sense.not_better_best value)

/-- What an incumbent closes does not beat its threshold. -/
theorem not_better_threshold {g a : ℚ} (hg : c.relativeGap = .ofRat g)
    (ha : c.absoluteGap = .ofRat a) (hg0 : 0 ≤ g) {best value : Exact} (hbest : best ≠ .nan)
    (h : c.Closes best value) : c.sense.better value (c.threshold best) = false := by
  rcases h with hnot | hthr
  · cases hv : c.sense.better value (c.threshold best) with
    | false => rfl
    | true =>
      rcases threshold_noWorse hg ha hg0 hbest with hn | hn
      · have hvalid := (Sense.valid_of_noWorse (Sense.noWorse_of_better hv)).2
        exact absurd hn hvalid
      · rw [Sense.better_of_better_of_noWorse hv hn] at hnot
        exact hnot
  · exact Sense.not_better_of_noWorse hthr

end Criteria

/-! ## Offers -/

namespace Scoreboard

section

variable {α : Type} [Scalar α] (board : Scoreboard α) {x : Array α} {value : α}

theorem improves_iff : board.improves value = true ↔
    ∀ old, board.bestValue = some old → board.sense.better value old = true := by
  unfold improves
  cases board.bestValue <;> simp

/-- An offer keeps the incumbent or puts a better one in its place. -/
theorem best_offer_of_some {best : Incumbent α} (hbest : board.best = some best) :
    ∃ best', (board.offer x value).2.best = some best' ∧
      (best' = best ∨ board.sense.better best'.objective best.objective = true) := by
  rw [best_offer]
  cases ho : (board.offer x value).1 with
  | false => exact ⟨best, hbest, Or.inl rfl⟩
  | true =>
    have hold : board.bestValue = some best.objective := congrArg (Option.map _) hbest
    have himproves := ((offer_fst_iff board x value).mp ho).2
    exact ⟨⟨x, value⟩, rfl, Or.inr ((improves_iff board).mp himproves _ hold)⟩

/-- No offered value beats the incumbent after the offer. -/
theorem exists_best_offer [Lawful α] (hvalue : Scalar.isNaN value = false) : ∃ best,
    (board.offer x value).2.best = some best ∧
      board.sense.better value best.objective = false := by
  rw [best_offer]
  cases ho : (board.offer x value).1 with
  | true => exact ⟨⟨x, value⟩, rfl, Sense.not_better_self value⟩
  | false =>
    rw [← Bool.not_eq_true, offer_fst_iff, improves_iff] at ho
    push Not at ho
    obtain ⟨old, hold, hnot⟩ := ho hvalue
    obtain ⟨best, hbest, rfl⟩ := Option.map_eq_some_iff.mp hold
    exact ⟨best, hbest, Bool.not_eq_true _ ▸ hnot⟩

end

/-- An offer replaces the incumbent exactly if its value is valid and beats the incumbent's, if
there is one. -/
theorem offer_fst_eq_true_iff (board : Scoreboard Exact) {x : Array Exact} {value : Exact} :
    (board.offer x value).1 = true ↔ value ≠ .nan ∧
      ∀ old, board.bestValue = some old → board.sense.better value old = true := by
  rw [offer_fst_iff, Exact.isNaN_eq_false_iff, improves_iff]

end Scoreboard

end BranchBound
