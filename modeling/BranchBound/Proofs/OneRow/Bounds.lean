import BranchBound.Proofs.Building
import BranchBound.Proofs.OneRow.Reach
import BranchBound.Proofs.Tightening

/-!
# Bounds of doubles

The bounds of a built program are valid (`Program.validBounds_of_build`), and a node lays no bound
over them that is wider (`exists_tighten_narrower`). So a value that a column of the tightened
bounds admits is within the bounds of the program, up to the tolerance of the validator
(`Column.Admits.within`). The bounds may cross by the tolerance of the solver; this is much less.
-/

namespace BranchBound

open Double

/-! ## Valid bounds -/

namespace Program

variable {p q : Program Float}

/-- No bound is invalid. -/
structure ValidBounds (p : Program Float) : Prop where
  lower : ∀ v ∈ p.lower, value v ≠ .nan
  upper : ∀ v ∈ p.upper, value v ≠ .nan

theorem ValidBounds.of_setBounds {var : Nat} {lower upper : Float}
    (h : p.setBounds var lower upper = .ok q) (hp : p.ValidBounds) : q.ValidBounds := by
  obtain ⟨-, ⟨hlower, hupper⟩, rfl⟩ := setBounds_eq_ok h
  constructor
  · intro v hv
    rcases Array.mem_or_eq_of_mem_setIfInBounds hv with hold | rfl
    · exact hp.lower v hold
    · exact isNaN_eq_false_iff.mp hlower
  · intro v hv
    rcases Array.mem_or_eq_of_mem_setIfInBounds hv with hold | rfl
    · exact hp.upper v hold
    · exact isNaN_eq_false_iff.mp hupper

/-- What a valid function makes of the entry at an index is valid, as the others are. -/
theorem valid_modify {xs : Array Float} (hxs : ∀ v ∈ xs, value v ≠ .nan) (var : Nat)
    {f : Float → Float} (hf : ∀ v, value v ≠ .nan → value (f v) ≠ .nan) :
    ∀ v ∈ xs.modify var f, value v ≠ .nan := by
  intro v hv
  obtain ⟨j, hj⟩ := Array.mem_iff_getElem?.mp hv
  rw [Array.getElem?_modify] at hj
  split at hj
  · obtain ⟨w, hw, rfl⟩ := Option.map_eq_some_iff.mp hj
    exact hf w (hxs w (Array.mem_of_getElem? hw))
  · exact hxs v (Array.mem_of_getElem? hj)

theorem ValidBounds.of_markBinary {var : Nat} (h : p.markBinary var = .ok q)
    (hp : p.ValidBounds) : q.ValidBounds := by
  obtain ⟨-, rfl⟩ := markBinary_eq_ok h
  have hlower : ∀ v : Float, value v ≠ .nan → value (Scalar.maxNum v 0.0) ≠ .nan := by
    intro v hv
    rw [show value (Scalar.maxNum v 0.0) = Scalar.maxNum (value v) (value 0.0) from
      Lawful.value_maxNum v 0.0]
    rcases Exact.maxNum_cases (value v) (value 0.0) with hmax | hmax
    · rwa [hmax]
    · rw [hmax, value_zero]
      exact (nomatch ·)
  have hupper : ∀ v : Float, value v ≠ .nan → value (Scalar.minNum v 1.0) ≠ .nan := by
    intro v hv
    rw [show value (Scalar.minNum v 1.0) = Scalar.minNum (value v) (value 1.0) from
      Lawful.value_minNum v 1.0]
    rcases Exact.minNum_cases (value v) (value 1.0) with hmin | hmin
    · rwa [hmin]
    · rw [hmin, value_one]
      exact (nomatch ·)
  exact ⟨valid_modify hp.lower var hlower, valid_modify hp.upper var hupper⟩

theorem ValidBounds.of_apply {step : Step Float} (h : step.apply p = .ok q) (hp : p.ValidBounds) :
    q.ValidBounds := by
  cases step with
  | constant value =>
    rw [← Except.ok.inj h]
    exact ⟨hp.lower, hp.upper⟩
  | bounds var lower upper => exact hp.of_setBounds h
  | allBounds lower upper => exact invariant_of_foldlM (fun hstep hr => hr.of_setBounds hstep) h hp
  | integer var =>
    obtain ⟨-, rfl⟩ := markInteger_eq_ok h
    exact ⟨hp.lower, hp.upper⟩
  | binary var => exact hp.of_markBinary h
  | allInteger =>
    refine invariant_of_foldlM (fun hstep hr => ?_) h hp
    obtain ⟨-, rfl⟩ := markInteger_eq_ok hstep
    exact ⟨hr.lower, hr.upper⟩
  | row coefs rhs =>
    obtain ⟨-, -, -, rfl⟩ := addRow_eq_ok h
    exact ⟨hp.lower, hp.upper⟩

theorem validBounds_of_build {sense : Sense} {costs : Array Float} {steps : List (Step Float)}
    (h : build sense costs steps = .ok p) : p.ValidBounds := by
  refine invariant_of_foldlM (fun hstep hr => hr.of_apply hstep) h ⟨fun v hv => ?_, fun v hv => ?_⟩
  · rw [(Array.mem_replicate.mp hv).2, value_negInf]
    exact (nomatch ·)
  · rw [(Array.mem_replicate.mp hv).2, value_posInf]
    exact (nomatch ·)

end Program

/-! ## Tightened bounds -/

theorem Exact.le_maxNum {x y : Exact} (hx : x ≠ .nan) : x ≤ Scalar.maxNum x y := by
  unfold Scalar.maxNum
  split_ifs with hnan hnan' hlt
  · rw [isNaN_eq_false_iff.mpr hx] at hnan
    cases hnan
  · exact le_refl_of_valid hx
  · exact le_refl_of_valid hx
  · exact Exact.le_of_not_lt hx (isNaN_eq_false_iff.mp (Bool.eq_false_iff.mpr hnan')) hlt

theorem Exact.minNum_le {x y : Exact} (hx : x ≠ .nan) : Scalar.minNum x y ≤ x := by
  unfold Scalar.minNum
  split_ifs with hnan hnan' hlt
  · rw [isNaN_eq_false_iff.mpr hx] at hnan
    cases hnan
  · exact le_refl_of_valid hx
  · exact le_refl_of_valid hx
  · exact Exact.le_of_not_lt (isNaN_eq_false_iff.mp (Bool.eq_false_iff.mpr hnan')) hx hlt

theorem Cut.le_raise (c : Cut) {v : Float} (hv : value v ≠ .nan) : value v ≤ value (c.raise v) := by
  unfold Cut.raise
  cases c.atLeast with
  | none => exact Exact.le_refl_of_valid hv
  | some k =>
    rw [show value (Scalar.maxNum v (Scalar.ofInt k)) = Scalar.maxNum (value v)
      (value (Scalar.ofInt k)) from Lawful.value_maxNum v _]
    exact Exact.le_maxNum hv

theorem Cut.cap_le (c : Cut) {v : Float} (hv : value v ≠ .nan) : value (c.cap v) ≤ value v := by
  unfold Cut.cap
  cases c.atMost with
  | none => exact Exact.le_refl_of_valid hv
  | some k =>
    rw [show value (Scalar.minNum v (Scalar.ofInt k)) = Scalar.minNum (value v)
      (value (Scalar.ofInt k)) from Lawful.value_minNum v _]
    exact Exact.minNum_le hv

/-- The bounds of a node, laid over valid bounds, are nowhere wider. -/
theorem exists_tighten_narrower {n : Nat} {node : Node Float} (hvars : ∀ var ∈ node.vars, var < n)
    {l u : Nat → Float} (hl : ∀ j, value (l j) ≠ .nan) (hu : ∀ j, value (u j) ≠ .nan) :
    ∃ l' u', node.tighten (tabulate n l) (tabulate n u) = .ok (tabulate n l', tabulate n u') ∧
      ∀ j, value (l j) ≤ value (l' j) ∧ value (u' j) ≤ value (u j) := by
  have hcuts := Node.lt_of_mem_overrides hvars
  unfold Node.tighten
  generalize node.overrides = cuts at hcuts
  induction cuts generalizing l u with
  | nil => exact ⟨l, u, rfl, fun j =>
      ⟨Exact.le_refl_of_valid (hl j), Exact.le_refl_of_valid (hu j)⟩⟩
  | cons o rest ih =>
    have hlower : ∀ j, value (l j) ≤ value (Function.update l o.1 (o.2.raise (l o.1)) j) := by
      intro j
      by_cases hj : j = o.1
      · rw [hj, Function.update_self]
        exact o.2.le_raise (hl _)
      · rw [Function.update_of_ne hj]
        exact Exact.le_refl_of_valid (hl j)
    have hupper : ∀ j, value (Function.update u o.1 (o.2.cap (u o.1)) j) ≤ value (u j) := by
      intro j
      by_cases hj : j = o.1
      · rw [hj, Function.update_self]
        exact o.2.cap_le (hu _)
      · rw [Function.update_of_ne hj]
        exact Exact.le_refl_of_valid (hu j)
    rw [List.foldlM_cons]
    dsimp only
    rw [Node.tightenAt_tabulate (hcuts o List.mem_cons_self)]
    obtain ⟨l', u', hfold, hnarrow⟩ := ih (fun j => (Exact.valid_of_le (hlower j)).2)
      (fun j => (Exact.valid_of_le (hupper j)).1) fun e he => hcuts e (List.mem_cons_of_mem o he)
    exact ⟨l', u', hfold, fun j => ⟨Exact.le_trans (hlower j) (hnarrow j).1,
      Exact.le_trans (hnarrow j).2 (hupper j)⟩⟩

/-! ## Bounds and tolerances -/

/-- What is below a bound by a tolerance at most is not below a lower one less the tolerance. -/
theorem Exact.sub_ofRat_le {l l' : Exact} {t ξ : ℚ} (hle : l ≤ l') (hne : l' ≠ .posInf)
    (h : ∀ q, l' = .ofRat q → q - t ≤ ξ) : l - .ofRat t ≤ .ofRat ξ := by
  cases l with
  | negInf => exact negInf_le_ofRat ξ
  | nan => exact absurd hle (not_nan_le l')
  | posInf =>
    cases l' with
    | ofRat q => exact absurd hle (not_posInf_le_ofRat q)
    | posInf => exact absurd rfl hne
    | negInf => exact absurd hle not_posInf_le_negInf
    | nan => exact absurd hle (not_le_nan _)
  | ofRat p =>
    cases l' with
    | ofRat q =>
      have hq := h q rfl
      rw [ofRat_le] at hle
      rw [ofRat_sub, ofRat_le]
      linarith
    | posInf => exact absurd rfl hne
    | negInf => exact absurd hle (not_ofRat_le_negInf p)
    | nan => exact absurd hle (not_le_nan _)

theorem Exact.le_add_ofRat {u u' : Exact} {t ξ : ℚ} (hle : u' ≤ u) (hne : u' ≠ .negInf)
    (h : ∀ q, u' = .ofRat q → ξ ≤ q + t) : .ofRat ξ ≤ u + .ofRat t := by
  cases u with
  | posInf => exact ofRat_le_posInf ξ
  | nan => exact absurd hle (not_le_nan u')
  | negInf =>
    cases u' with
    | ofRat q => exact absurd hle (not_ofRat_le_negInf q)
    | posInf => exact absurd hle not_posInf_le_negInf
    | negInf => exact absurd rfl hne
    | nan => exact absurd hle (not_nan_le _)
  | ofRat p =>
    cases u' with
    | ofRat q =>
      have hq := h q rfl
      rw [ofRat_le] at hle
      rw [ofRat_add, ofRat_le]
      linarith
    | posInf => exact absurd hle (not_posInf_le_ofRat p)
    | negInf => exact absurd rfl hne
    | nan => exact absurd hle (not_nan_le _)

namespace OneRow

theorem value_boundTolerance : value boundTolerance = .ofRat (4835703278458517 / 2 ^ 82) := by
  show Exact.ofRat (signed .positive ((4835703278458517 : ℕ) * 2 ^ (-82 : ℤ))) = _
  norm_num [signed]

theorem value_validationTolerance :
    value Program.validationTolerance = .ofRat (4722366482869645 / 2 ^ 72) := by
  show Exact.ofRat (signed .positive ((4722366482869645 : ℕ) * 2 ^ (-72 : ℤ))) = _
  norm_num [signed]

/-- Bounds that do not cross by more than the tolerance, as it is rounded, hardly cross. -/
theorem le_add_of_uncrossed {l u : Float} {p q : ℚ} (hl : value l = .ofRat p)
    (hu : value u = .ofRat q) (h : ¬u + boundTolerance < l) : p ≤ q + 3 / 10 ^ 9 := by
  have hrounded := rounded_add u boundTolerance
  rw [hu, value_boundTolerance, Exact.ofRat_add] at hrounded
  obtain ⟨r, hr, hvalue⟩ := hrounded.nearest _ rfl
  -- the upper bound itself is a double, and no farther away than the tolerance
  have hnear := (abs_le.mp (hr.error_le_of_fits (fits_of_value hu).1)).2
  rw [abs_sub_comm, add_sub_cancel_left, abs_of_pos (by norm_num)] at hnear
  by_contra hlt
  have hrp : r < p := by
    norm_num at hnear hlt ⊢
    linarith
  refine h ((lt_iff _ _).mpr ?_)
  rw [hvalue, hl]
  have hlimit := (fits_of_value hl).2.2
  unfold overflow
  split_ifs
  · linarith
  · exact Exact.negInf_lt_ofRat p
  · exact (Exact.ofRat_lt _ _).mpr hrp

namespace Column

variable {c : Column Float} {ξ : ℚ}

theorem Admits.lower_le (h : c.Admits ξ) (huncrossed : ¬c.upper + boundTolerance < c.lower) {q : ℚ}
    (hq : Double.value c.lower = .ofRat q) : q - 95 / 10 ^ 8 ≤ ξ := by
  unfold Admits gap at h
  rcases h with ⟨q', hq', hnear⟩ | ⟨q', hq', hnear⟩ | ⟨hle, -⟩
  · obtain rfl : q = q' := Exact.ofRat.inj (hq.symm.trans hq')
    linarith [(abs_le.mp hnear).1]
  · linarith [(abs_le.mp hnear).1, le_add_of_uncrossed hq hq' huncrossed]
  · rw [hq, Exact.ofRat_le] at hle
    linarith

theorem Admits.le_upper (h : c.Admits ξ) (huncrossed : ¬c.upper + boundTolerance < c.lower) {q : ℚ}
    (hq : Double.value c.upper = .ofRat q) : ξ ≤ q + 95 / 10 ^ 8 := by
  unfold Admits gap at h
  rcases h with ⟨q', hq', hnear⟩ | ⟨q', hq', hnear⟩ | ⟨-, hle⟩
  · linarith [(abs_le.mp hnear).2, le_add_of_uncrossed hq' hq huncrossed]
  · obtain rfl : q = q' := Exact.ofRat.inj (hq.symm.trans hq')
    linarith [(abs_le.mp hnear).2]
  · rw [hq, Exact.ofRat_le] at hle
    linarith

/-- A value that a column admits is within wider bounds, up to the tolerance of the validator. -/
theorem Admits.within (h : c.Admits ξ) (huncrossed : ¬c.upper + boundTolerance < c.lower)
    (hlower : Double.value c.lower ≠ .posInf) (hupper : Double.value c.upper ≠ .negInf)
    {l u v : Float} (hv : Double.value v = .ofRat ξ) (hl : Double.value l ≤ Double.value c.lower)
    (hu : Double.value c.upper ≤ Double.value u) :
    l - Program.validationTolerance ≤ v ∧ v ≤ u + Program.validationTolerance := by
  have hsub := (rounded_sub l Program.validationTolerance).toFaithful
  have hadd := (rounded_add u Program.validationTolerance).toFaithful
  rw [value_validationTolerance] at hsub hadd
  constructor
  · refine (le_iff _ _).mpr (hsub.le_of_le v ?_)
    rw [hv]
    refine Exact.sub_ofRat_le hl hlower fun q hq => ?_
    have hle := h.lower_le huncrossed hq
    norm_num at hle ⊢
    linarith
  · refine (le_iff _ _).mpr (hadd.ge_of_ge v ?_)
    rw [hv]
    refine Exact.le_add_ofRat hu hupper fun q hq => ?_
    have hle := h.le_upper huncrossed hq
    norm_num at hle ⊢
    linarith

/-- The value of a variable off the row is admitted, if there is something on each side of its
bounds. -/
theorem admits_resting (hlower : Double.value c.lower ≠ .posInf ∧ Double.value c.lower ≠ .nan)
    (hupper : Double.value c.upper ≠ .negInf ∧ Double.value c.upper ≠ .nan)
    (hξ : Double.value c.resting = .ofRat ξ) : c.Admits ξ := by
  unfold resting at hξ
  split_ifs at hξ with hpos hneg hlow hhigh
  · exact admits_bound (Or.inl rfl) hξ
  · exact admits_bound (Or.inr rfl) hξ
  · exact admits_bound (Or.inl rfl) hξ
  · exact admits_bound (Or.inr rfl) hξ
  · refine Or.inr (Or.inr ⟨?_, ?_⟩)
    · cases hl : Double.value c.lower with
      | ofRat q => exact absurd (isFinite_iff.mpr ⟨q, hl⟩) hlow
      | negInf => exact Exact.negInf_le_ofRat ξ
      | posInf => exact absurd hl hlower.1
      | nan => exact absurd hl hlower.2
    · cases hu : Double.value c.upper with
      | ofRat q => exact absurd (isFinite_iff.mpr ⟨q, hu⟩) hhigh
      | posInf => exact Exact.ofRat_le_posInf ξ
      | negInf => exact absurd hu hupper.1
      | nan => exact absurd hu hupper.2

end Column

end OneRow

end BranchBound
