import BranchBound.Proofs.Building
import BranchBound.Proofs.Double.Whole

/-!
# Bounds of variables that are zero or one

Marking a variable as zero or one brings its bounds into that range, whatever they were. They stay
there as long as no step sets the bounds of the variable anew: such a step replaces them, and asks
neither for the mark nor for the range (`Binary.widened`).

So for every marked variable of a built program it is the last of its steps that counts
(`binary_bounds_of_build`): if the mark came last its bounds are within zero and one, and otherwise
they are the ones that were set (`boundsSinceBinary`).
-/

namespace BranchBound

open Scalar

namespace Program

/-! ## Bounds that were set after the mark -/

/-- What a step does to the record of bounds that were set for a variable: a mark as zero or one
clears it. -/
def Step.note {α : Type} (var : Nat) (since : Option (α × α)) : Step α → Option (α × α)
  | .bounds v lower upper => if v = var then some (lower, upper) else since
  | .allBounds lower upper => some (lower, upper)
  | .binary v => if v = var then none else since
  | _ => since

/-- The bounds that were set for a variable after it was last marked as zero or one. -/
def boundsSinceBinary {α : Type} (var : Nat) (steps : List (Step α)) : Option (α × α) :=
  steps.foldl (Step.note var) none

variable {α : Type} [Scalar α]

/-- If a variable is marked, its bounds are the ones on record, or else within zero and one. -/
def Keeps (var : Nat) (since : Option (α × α)) (p : Program α) : Prop :=
  var ∈ p.binaries → ∃ l u, p.lower[var]? = some l ∧ p.upper[var]? = some u ∧
    match since with
    | none => 0.0 ≤ l ∧ u ≤ 1.0
    | some bounds => (l, u) = bounds

variable {p q : Program α} {var : Nat} {since : Option (α × α)}

theorem keeps_ofCosts (sense : Sense) (costs : Array α) : (ofCosts sense costs).Keeps var since :=
  fun hvar => absurd hvar (Array.not_mem_empty var)

/-! ## Steps that leave the bounds as they are -/

theorem Keeps.of_markInteger {v : Nat} (h : p.markInteger v = .ok q) (hp : p.Keeps var since) :
    q.Keeps var since := by
  obtain ⟨-, rfl⟩ := markInteger_eq_ok h
  exact hp

theorem Keeps.of_addRow {coefs : Array α} {rhs : α} (h : p.addRow coefs rhs = .ok q)
    (hp : p.Keeps var since) : q.Keeps var since := by
  obtain ⟨-, -, -, rfl⟩ := addRow_eq_ok h
  exact hp

/-! ## Steps that set bounds -/

theorem Keeps.of_setBounds {v : Nat} {lower upper : α} (h : p.setBounds v lower upper = .ok q)
    (hp : p.Keeps var since) :
    q.Keeps var (if v = var then some (lower, upper) else since) := by
  obtain ⟨-, -, rfl⟩ := setBounds_eq_ok h
  intro hvar
  obtain ⟨l, u, hl, hu, hbounds⟩ := hp hvar
  by_cases hv : v = var
  · subst hv
    rw [if_pos rfl]
    have hlower := (Array.getElem?_eq_some_iff.mp hl).1
    have hupper := (Array.getElem?_eq_some_iff.mp hu).1
    exact ⟨lower, upper, Array.getElem?_setIfInBounds_self_of_lt hlower,
      Array.getElem?_setIfInBounds_self_of_lt hupper, rfl⟩
  · rw [if_neg hv]
    exact ⟨l, u, by rwa [Array.getElem?_setIfInBounds_ne hv],
      by rwa [Array.getElem?_setIfInBounds_ne hv], hbounds⟩

/-- When the same bounds are set for one variable after the other, they are on record from the turn
of a variable on. -/
theorem Keeps.of_foldlM_setBounds {lower upper : α} {vars : List Nat} (hvar : var ∈ vars)
    (h : vars.foldlM (fun q v => q.setBounds v lower upper) p = .ok q) (hp : p.Keeps var since) :
    q.Keeps var (some (lower, upper)) := by
  induction vars generalizing p since with
  | nil => cases hvar
  | cons v rest ih =>
    rw [List.foldlM_cons, bind_eq_ok] at h
    obtain ⟨next, hv, h⟩ := h
    have hnext := hp.of_setBounds hv
    by_cases hmem : var ∈ rest
    · exact ih hmem h hnext
    · obtain rfl : v = var := ((List.mem_cons.mp hvar).resolve_right hmem).symm
      rw [if_pos rfl] at hnext
      refine invariant_of_foldlM (fun hstep hs => ?_) h hnext
      have hkept := hs.of_setBounds hstep
      rwa [ite_self] at hkept

/-- Setting the bounds of all variables sets those of every marked one: it has a bound already, so
the program knows it. -/
theorem Keeps.of_setAllBounds {lower upper : α} (hsize : p.lower.size = p.size)
    (h : p.setAllBounds lower upper = .ok q) (hp : p.Keeps var since) :
    q.Keeps var (some (lower, upper)) := by
  intro hvar
  obtain ⟨-, hbinaries⟩ := marks_of_setAllBounds h
  obtain ⟨l, -, hl, -⟩ := hp (hbinaries ▸ hvar)
  have hlt : var < p.size := hsize ▸ (Array.getElem?_eq_some_iff.mp hl).1
  exact hp.of_foldlM_setBounds (List.mem_range.mpr hlt) h hvar

/-! ## Marks -/

section

variable [Lawful α] {a b : α}

theorem le_self_of_valid (hb : isNaN b = false) : b ≤ b := by
  rw [Lawful.isNaN_eq, Exact.isNaN_eq_false_iff] at hb
  rw [Lawful.le_iff]
  exact Exact.le_refl_of_valid hb

theorem le_of_lt (h : a < b) : a ≤ b := by
  rw [Lawful.lt_iff] at h
  rw [Lawful.le_iff]
  exact Exact.le_of_lt h

/-- The greater of two numbers is not below the second, if that is valid. -/
theorem le_maxNum (hb : isNaN b = false) : b ≤ maxNum a b := by
  unfold maxNum
  rw [hb, if_neg Bool.false_ne_true]
  split_ifs with hnan hlt
  · exact le_self_of_valid hb
  · exact le_of_lt hlt
  · exact le_self_of_valid hb

/-- The lesser of two numbers is not above the second, if that is valid. -/
theorem minNum_le (hb : isNaN b = false) : minNum a b ≤ b := by
  unfold minNum
  rw [hb, if_neg Bool.false_ne_true]
  split_ifs with hnan hlt
  · exact le_self_of_valid hb
  · exact le_of_lt hlt
  · exact le_self_of_valid hb

variable {sense : Sense} {costs : Array α} (hzero : isNaN (0.0 : α) = false)
  (hone : isNaN (1.0 : α) = false)

include hzero hone

/-- A mark brings the bounds of its variable between zero and one. The bounds and marks of the
others stay. -/
theorem Keeps.of_markBinary {v : Nat} (hw : p.WellFormed) (h : p.markBinary v = .ok q)
    (hp : p.Keeps var since) : q.Keeps var (if v = var then none else since) := by
  obtain ⟨hknown, rfl⟩ := markBinary_eq_ok h
  intro hvar
  by_cases hv : v = var
  · subst hv
    rw [if_pos rfl]
    have hlower : v < p.lower.size := hw.size_lower ▸ hknown
    have hupper : v < p.upper.size := hw.size_upper ▸ hknown
    refine ⟨maxNum p.lower[v] 0.0, minNum p.upper[v] 1.0, ?_, ?_, le_maxNum hzero, minNum_le hone⟩
    · rw [Array.getElem?_modify, if_pos rfl, Array.getElem?_eq_getElem hlower, Option.map_some]
    · rw [Array.getElem?_modify, if_pos rfl, Array.getElem?_eq_getElem hupper, Option.map_some]
  · rw [if_neg hv]
    rw [List.mem_toArray, mem_insertAscending, Array.mem_toList_iff] at hvar
    obtain ⟨l, u, hl, hu, hbounds⟩ := hp (hvar.resolve_left fun heq => hv heq.symm)
    refine ⟨l, u, ?_, ?_, hbounds⟩
    · rw [Array.getElem?_modify, if_neg hv, hl]
    · rw [Array.getElem?_modify, if_neg hv, hu]

/-! ## Any steps -/

theorem Keeps.of_apply {step : Step α} (hw : p.WellFormed) (h : step.apply p = .ok q)
    (hp : p.Keeps var since) : q.Keeps var (Step.note var since step) := by
  cases step with
  | constant value =>
    rw [← Except.ok.inj h]
    exact hp
  | bounds v lower upper => exact hp.of_setBounds h
  | allBounds lower upper => exact hp.of_setAllBounds hw.size_lower h
  | integer v => exact hp.of_markInteger h
  | binary v => exact hp.of_markBinary hzero hone hw h
  | allInteger => exact invariant_of_foldlM (fun hstep hr => hr.of_markInteger hstep) h hp
  | row coefs rhs => exact hp.of_addRow h

theorem Keeps.of_foldlM_apply {steps : List (Step α)} (hbuilt : p.BuiltFrom sense costs)
    (h : steps.foldlM Step.apply p = .ok q) (hp : p.Keeps var since) :
    q.Keeps var (steps.foldl (Step.note var) since) := by
  refine (foldlM_induction (P := fun done r => r.BuiltFrom sense costs ∧
    r.Keeps var (done.foldl (Step.note var) since)) (fun hstep ⟨hr, hkept⟩ => ?_) h ⟨hbuilt, hp⟩).2
  rw [List.foldl_append]
  exact ⟨hr.of_apply hstep, hkept.of_apply hzero hone hr.wellFormed hstep⟩

end

/-- Every variable of a built program that is marked as zero or one has bounds between zero and one,
unless its bounds were set after it was last marked: then it has the bounds that were set. -/
theorem binary_bounds_of_build {sense : Sense} {costs : Array Float} {steps : List (Step Float)}
    {p : Program Float} (hbuild : build sense costs steps = .ok p) {var : Nat}
    (hvar : var ∈ p.binaries) :
    ∃ l u, p.lower[var]? = some l ∧ p.upper[var]? = some u ∧
      (boundsSinceBinary var steps = none → 0.0 ≤ l ∧ u ≤ 1.0) ∧
      ∀ bounds, boundsSinceBinary var steps = some bounds → (l, u) = bounds := by
  have hkeeps : p.Keeps var (boundsSinceBinary var steps) :=
    (keeps_ofCosts sense costs).of_foldlM_apply rfl rfl ⟨wellFormed_ofCosts sense costs, rfl, rfl⟩
      hbuild
  obtain ⟨l, u, hl, hu, hbounds⟩ := hkeeps hvar
  refine ⟨l, u, hl, hu, fun hnone => ?_, fun bounds hsome => ?_⟩
  · rw [hnone] at hbounds
    exact hbounds
  · rw [hsome] at hbounds
    exact hbounds

/-! ## Marking before and after setting bounds -/

namespace Binary

/-- Bounds that are set before the mark give way to it. -/
def marked : List (Step Float) := [.allBounds (-3.0) 7.0, .binary 0, .allInteger, .bounds 1 0.0 5.0]

theorem binary_bounds_of_marked : ∃ p l u, build .maximise #[1.0, 1.0] marked = .ok p ∧
    0 ∈ p.binaries ∧ p.lower[0]? = some l ∧ p.upper[0]? = some u ∧ 0.0 ≤ l ∧ u ≤ 1.0 := by
  obtain ⟨p, hbuild, hp⟩ : ∃ p, build .maximise #[1.0, 1.0] marked = .ok p ∧
      p.binaries = #[0] := ⟨_, rfl, rfl⟩
  have hvar : 0 ∈ p.binaries := by
    rw [hp]
    exact Array.mem_singleton.mpr rfl
  obtain ⟨l, u, hl, hu, hkept, -⟩ := binary_bounds_of_build hbuild hvar
  exact ⟨p, l, u, hbuild, hvar, hl, hu, hkept rfl⟩

/-- Bounds that are set after the mark are taken as they are: a variable that is marked as zero or
one may then be up to five. -/
theorem widened : ∃ p l u, build .maximise #[1.0] [.binary 0, .bounds 0 0.0 5.0] = .ok p ∧
    0 ∈ p.binaries ∧ p.lower[0]? = some l ∧ p.upper[0]? = some u ∧
    ¬(0.0 ≤ l ∧ u ≤ (1.0 : Float)) := by
  obtain ⟨p, hbuild, hp, hl, hu⟩ : ∃ p,
      build .maximise #[1.0] [.binary 0, .bounds 0 0.0 5.0] = .ok p ∧ p.binaries = #[0] ∧
      p.lower[0]? = some 0.0 ∧ p.upper[0]? = some (5.0 : Float) := ⟨_, rfl, rfl, rfl, rfl⟩
  refine ⟨p, 0.0, 5.0, hbuild, ?_, hl, hu, by decide⟩
  rw [hp]
  exact Array.mem_singleton.mpr rfl

end Binary

end Program

end BranchBound
