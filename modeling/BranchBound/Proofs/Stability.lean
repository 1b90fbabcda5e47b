import BranchBound.Proofs.Coherence
import BranchBound.Proofs.Double.Shares
import BranchBound.Proofs.Double.Whole
import BranchBound.Proofs.Simulation

/-!
# Stability of pruning

What is pruned by one incumbent is pruned by every one that is as good (`Criteria.Stable`), and so the
cutoffs that a run hands to its relaxation never loosen (`Settings.Steady`). That is so in doubles if
the relative gap is three quarters at most, and in exact arithmetic up to the whole
(`pruning_steady`).

The bounds are there for a reason (`pruning_unsteady`). With a relative gap above one the threshold
gets worse as the incumbent gets better. In doubles the rounding of the gap may do the same below
that.
-/

namespace BranchBound

open Lawful

/-! ## Cutoffs in a row -/

namespace Cutoff

section

variable {α : Type} [Scalar α]

/-- Whether a cutoff is as tight as the one before. Without a cutoff, or within one at the invalid
number, nothing is excluded. -/
def Follows : Option (Cutoff α) → Option (Cutoff α) → Prop
  | none, _ => True
  | some (.upper x), some (.upper y) => Scalar.isNaN x = true ∨ y ≤ x
  | some (.lower x), some (.lower y) => Scalar.isNaN x = true ∨ x ≤ y
  | _, _ => False

end

variable {α : Type} [Scalar α] [Lawful α]

theorem isNaN_or_noWorse_trans (sense : Sense) {x y z : α}
    (hxy : Scalar.isNaN x = true ∨ sense.noWorse y x)
    (hyz : Scalar.isNaN y = true ∨ sense.noWorse z y) :
    Scalar.isNaN x = true ∨ sense.noWorse z x := by
  rw [isNaN_eq x, Sense.noWorse_iff] at hxy
  rw [isNaN_eq y, Sense.noWorse_iff] at hyz
  rw [isNaN_eq x, Sense.noWorse_iff]
  rcases hxy with hnan | hxy
  · exact Or.inl hnan
  · rcases hyz with hnan | hyz
    · rw [Exact.isNaN_eq_false_iff.mpr (Sense.valid_of_noWorse hxy).1] at hnan
      cases hnan
    · exact Or.inr (Sense.noWorse_trans hyz hxy)

theorem Follows.trans {a b c : Option (Cutoff α)} (hab : Follows a b) (hbc : Follows b c) :
    Follows a c :=
  match a, b, c with
  | none, _, _ => trivial
  | some (.upper _), some (.upper _), some (.upper _) =>
    isNaN_or_noWorse_trans .minimise hab hbc
  | some (.lower _), some (.lower _), some (.lower _) =>
    isNaN_or_noWorse_trans .maximise hab hbc
  | some (.upper _), some (.upper _), none => hbc.elim
  | some (.upper _), some (.upper _), some (.lower _) => hbc.elim
  | some (.lower _), some (.lower _), none => hbc.elim
  | some (.lower _), some (.lower _), some (.upper _) => hbc.elim
  | some (.upper _), none, _ => hab.elim
  | some (.upper _), some (.lower _), _ => hab.elim
  | some (.lower _), none, _ => hab.elim
  | some (.lower _), some (.upper _), _ => hab.elim

end Cutoff

/-! ## Stable criteria -/

namespace Criteria

/-- Whether what an incumbent prunes is pruned by every one that is as good. -/
def Stable {α : Type} [Scalar α] (c : Criteria α) : Prop :=
  ∀ objective best best', c.sense.noWorse best' best →
    c.mayImprove objective (some best) = false → c.mayImprove objective (some best') = false

section

variable {α : Type} [Scalar α] [Lawful α] {c : Criteria α} {best best' : α}

/-- Stable criteria have a threshold that is as good at an incumbent that is as good, where there is
one. -/
theorem Stable.threshold_noWorse (hc : c.Stable) (h : c.sense.noWorse best' best)
    (hvalid : value (c.threshold best) ≠ .nan) :
    c.sense.noWorse (c.threshold best') (c.threshold best) := by
  rw [← mayImprove_eq_false_iff]
  refine hc _ best best' h ?_
  rw [mayImprove_eq_false_iff, Sense.noWorse_iff]
  exact Sense.noWorse_refl hvalid

/-- The cutoff at an incumbent that is as good is as tight. -/
theorem Stable.cutoff_follows (hc : c.Stable) (h : c.sense.noWorse best' best) :
    Cutoff.Follows (c.cutoff? (some best)) (c.cutoff? (some best')) := by
  have hthreshold : Scalar.isNaN (c.threshold best) = true ∨
      c.sense.noWorse (c.threshold best') (c.threshold best) := by
    cases hnan : Scalar.isNaN (c.threshold best) with
    | true => exact Or.inl rfl
    | false =>
      rw [isNaN_eq, Exact.isNaN_eq_false_iff] at hnan
      exact Or.inr (hc.threshold_noWorse h hnan)
  unfold cutoff?
  unfold Sense.noWorse at hthreshold
  cases hs : c.sense with
  | minimise =>
    rw [hs] at hthreshold
    exact hthreshold
  | maximise =>
    rw [hs] at hthreshold
    exact hthreshold

end

end Criteria

/-! ## Thresholds at infinite incumbents -/

/-- A result is exact if it is no number, or if there is a number for it. -/
theorem Faithful.value_eq_of {α : Type} {value : α → Exact} {x : Exact} {r : α}
    (h : Faithful value x r) (hx : x = .nan ∨ ∃ c, value c = x) : value r = x := by
  rcases hx with rfl | ⟨c, hc⟩
  · exact h.nan_iff.mpr rfl
  · by_cases hnan : x = .nan
    · rw [hnan] at h ⊢
      exact h.nan_iff.mpr rfl
    · exact h.value_eq hc hnan

namespace Sense

variable {sense : Sense} {v w : Exact}

/-- Nothing is as good as an infinite value but itself and the best one. -/
theorem eq_best_or_eq_of_noWorse (hv : Scalar.isFinite v = false) (h : sense.noWorse v w) :
    v = sense.best ∨ v = w := by
  cases sense <;> cases v <;> cases w <;> simp_all [noWorse, best] <;> rfl

/-- An infinite value that is no better than a number is no better than any other one. -/
theorem noWorse_of_not_finite {p : ℚ} (hv : v ≠ .nan) (hw : Scalar.isFinite w = false)
    (h : sense.noWorse (.ofRat p) w) : sense.noWorse v w := by
  cases sense <;> cases v <;> cases w <;> simp_all [noWorse]

end Sense

namespace Criteria

/-- At the best value the threshold is that value. -/
theorem threshold_best {c : Criteria Exact} {g a : ℚ} (hg : c.relativeGap = .ofRat g)
    (ha : c.absoluteGap = .ofRat a) (hg0 : 0 ≤ g) : c.threshold c.sense.best = c.sense.best := by
  have hbest : Scalar.isFinite (c.sense.best : Exact) = false := by cases c.sense <;> rfl
  have hgap := gap_of_not_finite hg ha hg0 hbest
  unfold threshold
  cases hs : c.sense <;> rw [hs] at hgap <;> rcases hgap with h | h <;> rw [h] <;> rfl

section

variable {α : Type} [Scalar α] [Lawful α] {c : Criteria α} {best best' : α} {g a : ℚ}

omit [Lawful α] in
theorem threshold_of_minimise (h : c.sense = .minimise) :
    c.threshold best = best - c.gap best := by
  unfold threshold
  rw [h]

omit [Lawful α] in
theorem threshold_of_maximise (h : c.sense = .maximise) :
    c.threshold best = best + c.gap best := by
  unfold threshold
  rw [h]

/-- The criteria by the values of the tolerances. -/
def exactly (c : Criteria α) : Criteria Exact where
  sense := c.sense
  relativeGap := value c.relativeGap
  absoluteGap := value c.absoluteGap
  integrality := value c.integrality

/-- The gap of an infinite incumbent is exact. -/
theorem value_gap_of_not_finite (hg : value c.relativeGap = .ofRat g) (hg0 : 0 ≤ g)
    (hbest : Scalar.isFinite (value best) = false) :
    value (c.gap best) = c.exactly.gap (value best) := by
  have hprod : value (best * c.relativeGap) = value best * value c.relativeGap := by
    refine (faithful_mul best c.relativeGap).value_eq_of ?_
    rw [hg]
    rcases hg0.eq_or_lt with rfl | hpos
    · left
      cases hv : value best with
      | ofRat q => rw [hv] at hbest; cases hbest
      | posInf | negInf | nan => rfl
    · right
      refine ⟨best, ?_⟩
      have htimes : Exact.infTimes g = .posInf := by
        unfold Exact.infTimes
        rw [if_neg hpos.ne', if_pos hpos]
      cases hv : value best with
      | ofRat q => rw [hv] at hbest; cases hbest
      | posInf => exact htimes.symm
      | negInf => exact (congrArg Exact.neg htimes).symm
      | nan => rfl
  unfold gap exactly
  rw [value_maxNum, value_abs, hprod]

/-- The threshold at an infinite incumbent is exact. -/
theorem value_threshold_of_not_finite (hg : value c.relativeGap = .ofRat g) (hg0 : 0 ≤ g)
    (ha : value c.absoluteGap = .ofRat a) (hbest : Scalar.isFinite (value best) = false) :
    value (c.threshold best) = c.exactly.threshold (value best) := by
  have hgap : c.exactly.gap (value best) = value (c.gap best) :=
    (value_gap_of_not_finite hg hg0 hbest).symm
  have hcases := threshold_of_not_finite (c := c.exactly) hg ha hg0 hbest
  cases hs : c.sense with
  | minimise =>
    rw [threshold_of_minimise (c := c.exactly) hs, hgap] at hcases ⊢
    rw [threshold_of_minimise hs]
    exact (faithful_sub best _).value_eq_of (hcases.symm.imp_right fun h => ⟨best, h.symm⟩)
  | maximise =>
    rw [threshold_of_maximise (c := c.exactly) hs, hgap] at hcases ⊢
    rw [threshold_of_maximise hs]
    exact (faithful_add best _).value_eq_of (hcases.symm.imp_right fun h => ⟨best, h.symm⟩)

/-- Only for numbers it has to be shown that the threshold is as good at an incumbent that is as
good. -/
theorem stable_of_finite (hg : value c.relativeGap = .ofRat g) (hg0 : 0 ≤ g)
    (ha : value c.absoluteGap = .ofRat a)
    (hfinite : ∀ {best best' : α} {p q : ℚ}, value best' = .ofRat p → value best = .ofRat q →
      c.sense.noWorse best' best → c.sense.noWorse (c.threshold best') (c.threshold best)) :
    c.Stable := by
  intro objective best best' hle hpruned
  rw [mayImprove_eq_false_iff] at hpruned ⊢
  rw [Sense.noWorse_iff] at hpruned
  suffices hthreshold : c.sense.noWorse (value (c.threshold best')) (value (c.threshold best)) by
    rw [Sense.noWorse_iff]
    exact Sense.noWorse_trans hthreshold hpruned
  have hvalid := (Sense.valid_of_noWorse hpruned).1
  have hinfinite : ∀ {x : α}, Scalar.isFinite (value x) = false →
      value (c.threshold x) = c.exactly.threshold (value x) :=
    value_threshold_of_not_finite hg hg0 ha
  have hle' := Sense.noWorse_iff.mp hle
  cases hf' : Scalar.isFinite (value best') with
  | false =>
    rcases Sense.eq_best_or_eq_of_noWorse hf' hle' with hbest | hsame
    · have hthreshold : c.exactly.threshold c.sense.best = c.sense.best :=
        threshold_best (c := c.exactly) hg ha hg0
      rw [hinfinite hf', hbest, hthreshold]
      exact Sense.noWorse_of_not_better (hbest ▸ (Sense.valid_of_noWorse hle').1) hvalid
        (Sense.not_better_best _)
    · rw [hinfinite hf', hsame, ← hinfinite (hsame ▸ hf')]
      exact Sense.noWorse_refl hvalid
  | true =>
    obtain ⟨p, hp⟩ := Exact.isFinite_iff.mp hf'
    cases hf : Scalar.isFinite (value best) with
    | true =>
      obtain ⟨q, hq⟩ := Exact.isFinite_iff.mp hf
      exact Sense.noWorse_iff.mp (hfinite hp hq hle)
    | false =>
      -- what is left is an infinite incumbent that gives way to a number
      have hself := hfinite hp hp (Sense.noWorse_iff.mpr (Sense.noWorse_refl (by rw [hp]; simp)))
      have hthreshold : value (c.threshold best) = value best := by
        rw [hinfinite hf] at hvalid ⊢
        exact (threshold_of_not_finite (c := c.exactly) hg ha hg0 hf).resolve_right hvalid
      rw [hthreshold]
      rw [hp] at hle'
      exact Sense.noWorse_of_not_finite (Sense.valid_of_noWorse (Sense.noWorse_iff.mp hself)).1 hf
        hle'

end

end Criteria

/-! ## Stable tolerances -/

namespace Criteria

/-- In exact arithmetic criteria are stable if the relative gap is one at most. -/
theorem stable_of_exact {c : Criteria Exact} (hg : Settings.Usable c.relativeGap)
    (ha : Settings.Usable c.absoluteGap) (hle : c.relativeGap ≤ 1.0) : c.Stable := by
  obtain ⟨g, hg, hg0⟩ := hg.exists_rat
  obtain ⟨a, ha, -⟩ := ha.exists_rat
  have hgap : c.relativeGap = .ofRat g := hg
  have hg1 : g ≤ 1 := by
    rw [hgap, Exact.one_eq, Exact.ofRat_le] at hle
    exact hle
  refine stable_of_finite hg hg0 ha fun {best best' p q} hp hq hpq => ?_
  obtain rfl : best' = .ofRat p := hp
  obtain rfl : best = .ofRat q := hq
  exact threshold_noWorse_of_noWorse hgap ha hg0 hg1 hpq

/-- The gap of a double is that of its rounded share. -/
theorem exists_gap {c : Criteria Float} {best : Float} {g a q : ℚ}
    (hg : value c.relativeGap = .ofRat g) (hg0 : 0 ≤ g) (hg1 : g ≤ 1)
    (ha : value c.absoluteGap = .ofRat a) (hq : value best = .ofRat q) :
    ∃ s, Double.Nearest (q * g) s ∧ value (c.gap best) = .ofRat (max |s| a) := by
  obtain ⟨hfits, hlo, hhi⟩ := Double.fits_of_value hq
  have hrounded : Double.Rounded (value best * value c.relativeGap) (best * c.relativeGap) :=
    Double.rounded_mul best c.relativeGap
  rw [hq, hg, Exact.ofRat_mul] at hrounded
  obtain ⟨s, hs, hvalue⟩ := hrounded.nearest _ rfl
  -- the share is no greater than the number, so it does not overflow
  have hbound : |s| < Double.limit :=
    (hs.share_le hfits hg0 hg1).trans_lt (abs_lt.mpr ⟨hlo, hhi⟩)
  obtain ⟨hslo, hshi⟩ := abs_lt.mp hbound
  rw [Double.overflow_of_lt hslo hshi] at hvalue
  refine ⟨s, hs, ?_⟩
  have hmul : value (best * c.relativeGap) = .ofRat s := hvalue
  unfold gap
  rw [value_maxNum, value_abs, hmul, ha, Exact.abs_ofRat, Exact.maxNum_ofRat]

/-- In doubles criteria are stable if the relative gap is three quarters at most. -/
theorem stable_of_double {c : Criteria Float} (hg : Settings.Usable c.relativeGap)
    (ha : Settings.Usable c.absoluteGap) (hle : c.relativeGap ≤ 0.75) : c.Stable := by
  obtain ⟨g, hg, hg0⟩ := hg.exists_rat
  obtain ⟨a, ha, -⟩ := ha.exists_rat
  have hg1 : g ≤ 3 / 4 := by
    have hquarters : value (0.75 : Float) = .ofRat (3 / 4) := by decide +kernel
    rw [le_iff, hg, hquarters, Exact.ofRat_le] at hle
    exact hle
  refine stable_of_finite hg hg0 ha fun {best best' p q} hp hq hpq => ?_
  obtain ⟨s', hs', hgap'⟩ := exists_gap hg hg0 (by linarith) ha hp
  obtain ⟨s, hs, hgap⟩ := exists_gap hg hg0 (by linarith) ha hq
  obtain ⟨hfits', -⟩ := Double.fits_of_value hp
  obtain ⟨hfits, -⟩ := Double.fits_of_value hq
  have hmax : ∀ {x y d : ℚ}, 0 ≤ d → x - y ≤ d → max x a ≤ max y a + d := by
    intro x y d hd hxy
    refine max_le ?_ ?_
    · linarith [le_max_left y a]
    · linarith [le_max_right y a]
  rw [Sense.noWorse_iff, hp, hq] at hpq
  rw [Sense.noWorse_iff]
  unfold Sense.noWorse at hpq ⊢
  cases hsense : c.sense with
  | minimise =>
    rw [hsense] at hpq
    have hpq := (Exact.ofRat_le p q).mp hpq
    have hsub : ∀ x : Float, Double.Rounded (value x - value (c.gap x)) (c.threshold x) := by
      intro x
      rw [threshold_of_minimise hsense]
      exact Double.rounded_sub x (c.gap x)
    have hrounded := hsub best
    have hrounded' := hsub best'
    rw [hq, hgap, Exact.ofRat_sub] at hrounded
    rw [hp, hgap', Exact.ofRat_sub] at hrounded'
    refine hrounded'.mono hrounded ?_
    linarith [hmax (sub_nonneg.mpr hpq) (Double.share_abs_sub_le hfits hfits' hpq hg0 hg1 hs hs')]
  | maximise =>
    rw [hsense] at hpq
    have hqp := (Exact.ofRat_le q p).mp hpq
    have hadd : ∀ x : Float, Double.Rounded (value x + value (c.gap x)) (c.threshold x) := by
      intro x
      rw [threshold_of_maximise hsense]
      exact Double.rounded_add x (c.gap x)
    have hrounded := hadd best
    have hrounded' := hadd best'
    rw [hq, hgap, Exact.ofRat_add] at hrounded
    rw [hp, hgap', Exact.ofRat_add] at hrounded'
    refine hrounded.mono hrounded' ?_
    -- the signs turned around this is the case before
    have hneg := hs.neg
    have hneg' := hs'.neg
    rw [← neg_mul] at hneg hneg'
    have hshare := Double.share_abs_sub_le hfits.neg hfits'.neg (neg_le_neg hqp) hg0 hg1 hneg hneg'
    rw [abs_neg, abs_neg] at hshare
    linarith [hmax (sub_nonneg.mpr hqp) (by linarith : |s| - |s'| ≤ p - q)]

end Criteria

/-! ## Cutoffs of a run -/

section

variable {α : Type} [Scalar α]

/-- The cutoff that would be handed out in a state. -/
def State.cutoff? (search : Search α) (σ : State α) : Option (Cutoff α) :=
  search.criteria.cutoff? σ.board.bestValue

/-- Whether the cutoffs of the calls so far never loosen, and neither would that of a next call. -/
structure Run.Tightens (search : Search α) (r : Run α) : Prop where
  coherent : r.Coherent search
  follows : ((callsOf r.journal).map Call.cutoff ++ [r.state.cutoff? search]).Pairwise
    Cutoff.Follows

variable [Lawful α] {search : Search α}

/-- The cutoff after a visit is as tight as the one before. -/
theorem cutoff_follows_of_visit (hstable : search.criteria.Stable) {elapsed : Nat} {σ : State α}
    {node : Node α} {v : Visit α} (hsense : σ.board.sense = search.problem.sense)
    (hvalid : ∀ best, σ.board.best = some best → Scalar.isNaN best.objective = false)
    (h : visit search elapsed σ node = .ok v) :
    Cutoff.Follows (σ.cutoff? search) (v.state.cutoff? search) := by
  unfold State.cutoff? Scoreboard.bestValue
  cases hbest : σ.board.best with
  | none => trivial
  | some best =>
    obtain ⟨best', hbest', hcases⟩ := best_of_visit hsense h hbest
    rw [hbest']
    refine hstable.cutoff_follows ?_
    rw [Sense.noWorse_iff]
    rcases hcases with rfl | hbetter
    · have hnan := hvalid _ hbest
      rw [isNaN_eq, Exact.isNaN_eq_false_iff] at hnan
      exact Sense.noWorse_refl hnan
    · rw [Sense.better_iff] at hbetter
      exact Sense.noWorse_of_better hbetter

theorem Run.Tightens.of_advances (hstable : search.criteria.Stable) {r s : Run α}
    (hr : r.Tightens search) (h : Advances search r s) : s.Tightens search := by
  have hcoherent := hr.coherent.of_advances h
  obtain ⟨before, after, node, elapsed, v, -, hvisit, rfl⟩ := h.exists_visit
  refine ⟨hcoherent, ?_⟩
  have hnext := cutoff_follows_of_visit hstable hr.coherent.sense
    (fun best hbest => (hr.coherent.best best hbest).1) hvisit
  obtain ⟨hbefore, -, hlast⟩ := List.pairwise_append.mp hr.follows
  have hlast' : ∀ cutoff ∈ (callsOf r.journal).map Call.cutoff,
      Cutoff.Follows cutoff (v.state.cutoff? search) := fun cutoff hcutoff =>
    (hlast cutoff hcutoff _ (List.mem_singleton_self _)).trans hnext
  rw [journal_absorb, callsOf_append, List.map_append, state_absorb]
  have hcalls := calls_of_visit hvisit
  split at hcalls
  · -- the call was made within the cutoff of the state before
    obtain ⟨⟨answer, -, hcall⟩, -⟩ := hcalls
    rw [hcall]
    refine List.pairwise_append.mpr ⟨hr.follows, List.pairwise_singleton _ _, ?_⟩
    intro cutoff hcutoff cutoff' hcutoff'
    obtain rfl := List.mem_singleton.mp hcutoff'
    rcases List.mem_append.mp hcutoff with hold | hnew
    · exact hlast' cutoff hold
    · obtain rfl := List.mem_singleton.mp hnew
      exact hnext
  · rw [hcalls.1, List.map_nil, List.append_nil]
    refine List.pairwise_append.mpr ⟨hbefore, List.pairwise_singleton _ _, ?_⟩
    intro cutoff hcutoff cutoff' hcutoff'
    obtain rfl := List.mem_singleton.mp hcutoff'
    exact hlast' cutoff hcutoff

omit [Lawful α] in
theorem Run.tightens_start {warmStart : Option (Array α)} {r : Run α}
    (h : search.start warmStart = .ok r) : r.Tightens search := by
  obtain ⟨-, -, -, -, -, hcalls⟩ := Search.start_eq_ok h
  refine ⟨coherent_start h, ?_⟩
  rw [hcalls]
  exact List.pairwise_singleton _ _

/-- Along every schedule the cutoffs never loosen. -/
theorem Run.tightens_of_reaches (hstable : search.criteria.Stable)
    {warmStart : Option (Array α)} {start r : Run α} (hstart : search.start warmStart = .ok start)
    (h : Reaches search start r) : r.Tightens search :=
  invariant_of_reaches (fun hstep hr => hr.of_advances hstable hstep) h (tightens_start hstart)

end

/-! ## Steady settings -/

/-- Whether pruning is stable under settings, either way the objective is to go, and the cutoffs that
a search hands to its relaxation one after the other never loosen. -/
structure Settings.Steady {α : Type} [Scalar α] (s : Settings α) : Prop where
  stable : ∀ sense, (Criteria.ofSettings sense s).Stable
  follows : ∀ (search : Search α) (warmStart : Option (Array α)) (clock : Nat → Nat)
    (report : Report α), search.settings = s → search.solve warmStart clock = .ok report →
    ((callsOf report.journal).map Call.cutoff).Pairwise Cutoff.Follows

theorem Settings.steady_of_stable {α : Type} [Scalar α] [Lawful α] {s : Settings α}
    (h : ∀ sense, (Criteria.ofSettings sense s).Stable) : s.Steady := by
  refine ⟨h, ?_⟩
  rintro search warmStart clock report rfl hsolve
  obtain ⟨-, start, r, hstart, hrun, rfl⟩ := Search.solve_eq_ok hsolve
  have htightens := Run.tightens_of_reaches (h search.problem.sense) hstart (reaches_of_run hrun).1
  rw [Run.calls_finish]
  exact (List.pairwise_append.mp htightens.follows).1

/-- Checked settings are steady in doubles if the relative gap is three quarters at most, and in
exact arithmetic if it is one at most. -/
theorem pruning_steady :
    (∀ s : Settings Float, s.check = .ok () → s.relativeGap ≤ 0.75 → s.Steady) ∧
      ∀ s : Settings Exact, s.check = .ok () → s.relativeGap ≤ 1.0 → s.Steady := by
  constructor
  · intro s hcheck hle
    obtain ⟨hrelative, habsolute, -⟩ := Settings.check_eq_ok_iff.mp hcheck
    exact Settings.steady_of_stable fun _ => Criteria.stable_of_double hrelative habsolute hle
  · intro s hcheck hle
    obtain ⟨hrelative, habsolute, -⟩ := Settings.check_eq_ok_iff.mp hcheck
    exact Settings.steady_of_stable fun _ => Criteria.stable_of_exact hrelative habsolute hle

/-! ## The least `x`, with a gap of three quarters -/

namespace Steadiness

/-- A gap of three quarters of the incumbent. -/
def quarters : Settings Float := { Settings.standard with relativeGap := 0.75 }

/-- The points given for one call after the other. -/
def points : List Float := [0.5, 8.0, 0.5, 4.0]

def problem : Problem Float where
  sense := .minimise
  integers := #[0]
  size := 1
  objective x := x.getD 0 0.0
  accepts _ := true

def search : Search Float where
  problem := problem
  relaxation call _ _ := .ok <|
    match points[call]? with
    | some x => .optimal #[x] x
    | none => .infeasible
  settings := quarters

/-- The incumbents are eight and four, so the cutoffs are two and one. -/
theorem pruning_steady_quarters : ∃ report, search.solve none (fun _ => 0) = .ok report ∧
    ((callsOf report.journal).map fun call => call.cutoff.map fun
      | .upper x => value x
      | .lower x => value x) =
      [none, none, some (.ofRat 2), some (.ofRat 2), some (.ofRat 1)] ∧
    ((callsOf report.journal).map Call.cutoff).Pairwise Cutoff.Follows := by
  have hrun : (search.solve none (fun _ => 0)).toOption.map (fun report =>
      (callsOf report.journal).map fun call => call.cutoff.map fun
        | .upper x => value x
        | .lower x => value x) =
      some [none, none, some (.ofRat 2), some (.ofRat 2), some (.ofRat 1)] := by decide +kernel
  obtain ⟨report, hsolve, hcutoffs⟩ := exists_of_toOption_map hrun
  have hsteady := pruning_steady.1 quarters (by decide +kernel) (by decide +kernel)
  exact ⟨report, hsolve, hcutoffs, hsteady.follows search none _ report rfl hsolve⟩

/-! ## Greater gaps -/

/-- A gap of twice the incumbent. -/
def double : Settings Float := { Settings.standard with relativeGap := 2.0 }

/-- A gap of nearly four fifths of the incumbent. -/
def fifths : Settings Float := { Settings.standard with relativeGap := 0.79 }

/-- Beyond the bounds pruning is not steady. With a gap of twice the incumbent the threshold rises
from -10 to -1 as the incumbent falls from 10 to 1. With one of 0.79 it rises by a half as the
incumbent falls by one, where the rounded share of the incumbent falls below a power of two. -/
theorem pruning_unsteady :
    (double.check = .ok () ∧
      (Criteria.ofSettings .minimise double).mayImprove (-5.0) (some 10.0) = false ∧
      (Criteria.ofSettings .minimise double).mayImprove (-5.0) (some 1.0) = true ∧
      ¬double.Steady) ∧
    fifths.check = .ok () ∧
      (Criteria.ofSettings .minimise fifths).mayImprove 1197159394617473.0
        (some 5700759021987970.0) = false ∧
      (Criteria.ofSettings .minimise fifths).mayImprove 1197159394617473.0
        (some 5700759021987969.0) = true ∧
      ¬fifths.Steady := by
  have hunsteady : ∀ {s : Settings Float} {objective best best' : Float}, best' ≤ best →
      (Criteria.ofSettings .minimise s).mayImprove objective (some best) = false →
      (Criteria.ofSettings .minimise s).mayImprove objective (some best') = true →
      ¬s.Steady := by
    intro s objective best best' hle hpruned hkept hsteady
    rw [hsteady.stable .minimise objective best best' hle hpruned] at hkept
    cases hkept
  have hdouble : double.check = .ok () ∧
      (Criteria.ofSettings .minimise double).mayImprove (-5.0) (some 10.0) = false ∧
      (Criteria.ofSettings .minimise double).mayImprove (-5.0) (some 1.0) = true := by
    decide +kernel
  have hfifths : fifths.check = .ok () ∧
      (Criteria.ofSettings .minimise fifths).mayImprove 1197159394617473.0
        (some 5700759021987970.0) = false ∧
      (Criteria.ofSettings .minimise fifths).mayImprove 1197159394617473.0
        (some 5700759021987969.0) = true := by
    decide +kernel
  obtain ⟨hcheck, hpruned, hkept⟩ := hdouble
  obtain ⟨hcheck', hpruned', hkept'⟩ := hfifths
  exact ⟨⟨hcheck, hpruned, hkept, hunsteady (by decide +kernel) hpruned hkept⟩, hcheck', hpruned',
    hkept', hunsteady (by decide +kernel) hpruned' hkept'⟩

end Steadiness

end BranchBound
