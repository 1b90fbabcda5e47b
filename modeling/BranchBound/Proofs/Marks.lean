import BranchBound.Proofs.Ascending
import BranchBound.Proofs.OneRow.Bounds

/-!
# Marks of built programs

What a step makes of the marks of a program is to put the variables that it names among them
(`marks_of_apply`). So the marks of a built program are those that its steps made, in ascending
order, whatever other steps came between them and whatever their own order was (`marked_of_build`,
`marks_eq_of_build`).

Whether a step is refused depends on nothing but the number of variables
(`Step.admissible_of_apply`, `Step.Admissible.exists_apply`), so the steps that build a program
build one in any order (`exists_build_iff`, `exists_build_of_perm`).
-/

namespace BranchBound

open Scalar

namespace Program

variable {α : Type}

/-! ## What steps mark -/

/-- The variables that a step marks as whole, among so many. -/
def Step.wholes (size : Nat) : Step α → List Nat
  | .integer var => [var]
  | .binary var => [var]
  | .allInteger => List.range size
  | _ => []

/-- The variables that a step marks as zero or one. -/
def Step.zeroOnes : Step α → List Nat
  | .binary var => [var]
  | _ => []

/-- Whether a step marks variables. -/
def Step.isMark : Step α → Bool
  | .integer _ | .binary _ | .allInteger => true
  | _ => false

/-- Whether the marks of a program are those that steps made, in ascending order. -/
structure Marked (p : Program α) (steps : List (Step α)) : Prop where
  ascending_integers : p.integers.toList.Pairwise (· < ·)
  mem_integers : ∀ var, var ∈ p.integers ↔ ∃ step ∈ steps, var ∈ step.wholes p.size
  ascending_binaries : p.binaries.toList.Pairwise (· < ·)
  mem_binaries : ∀ var, var ∈ p.binaries ↔ ∃ step ∈ steps, var ∈ step.zeroOnes

theorem Step.wholes_of_zeroOnes {step : Step α} {var : Nat} (size : Nat) (h : var ∈ step.zeroOnes) :
    var ∈ step.wholes size := by
  cases step with
  | binary v => exact h
  | _ => exact absurd h List.not_mem_nil

variable [Scalar α] {p q : Program α} {sense : Sense} {costs : Array α} {step : Step α}
  {steps : List (Step α)}

omit [Scalar α] in
theorem marks_of_markAllInteger (h : p.markAllInteger = .ok q) :
    q.integers.toList = insertAll (List.range p.size) p.integers.toList ∧
      q.binaries = p.binaries := by
  refine foldlM_induction (P := fun done r =>
    r.integers.toList = insertAll done p.integers.toList ∧ r.binaries = p.binaries)
    (fun hstep hr => ?_) h ⟨rfl, rfl⟩
  obtain ⟨-, rfl⟩ := markInteger_eq_ok hstep
  rw [insertAll_append, ← hr.1]
  exact ⟨rfl, hr.2⟩

/-- A step puts the variables that it marks among the marked ones. -/
theorem marks_of_apply (h : step.apply p = .ok q) :
    q.integers.toList = insertAll (step.wholes p.size) p.integers.toList ∧
      q.binaries.toList = insertAll step.zeroOnes p.binaries.toList := by
  cases step with
  | constant value =>
    rw [← Except.ok.inj h]
    exact ⟨rfl, rfl⟩
  | bounds var lower upper =>
    obtain ⟨hintegers, hbinaries⟩ := marks_of_setBounds h
    exact ⟨congrArg Array.toList hintegers, congrArg Array.toList hbinaries⟩
  | allBounds lower upper =>
    obtain ⟨hintegers, hbinaries⟩ := marks_of_setAllBounds h
    exact ⟨congrArg Array.toList hintegers, congrArg Array.toList hbinaries⟩
  | integer var =>
    obtain ⟨-, rfl⟩ := markInteger_eq_ok h
    exact ⟨rfl, rfl⟩
  | binary var =>
    obtain ⟨-, rfl⟩ := markBinary_eq_ok h
    exact ⟨rfl, rfl⟩
  | allInteger =>
    obtain ⟨hintegers, hbinaries⟩ := marks_of_markAllInteger h
    exact ⟨hintegers, congrArg Array.toList hbinaries⟩
  | row coefs rhs =>
    obtain ⟨-, -, -, rfl⟩ := addRow_eq_ok h
    exact ⟨rfl, rfl⟩

/-- The marks of a built program are those of its steps, put in one after the other. -/
theorem marks_of_build (h : build sense costs steps = .ok p) :
    p.integers.toList = insertAll (steps.flatMap (Step.wholes costs.size)) [] ∧
      p.binaries.toList = insertAll (steps.flatMap Step.zeroOnes) [] := by
  refine (foldlM_induction (P := fun done r => r.BuiltFrom sense costs ∧
    r.integers.toList = insertAll (done.flatMap (Step.wholes costs.size)) [] ∧
      r.binaries.toList = insertAll (done.flatMap Step.zeroOnes) [])
    (fun hstep ⟨hbuilt, hintegers, hbinaries⟩ => ?_) h
    ⟨builtFrom_ofCosts sense costs, rfl, rfl⟩).2
  obtain ⟨hintegers', hbinaries'⟩ := marks_of_apply hstep
  refine ⟨hbuilt.of_apply hstep, ?_, ?_⟩
  · rw [hintegers', hintegers, hbuilt.size_eq, ← insertAll_append, List.flatMap_append,
      List.flatMap_singleton]
  · rw [hbinaries', hbinaries, ← insertAll_append, List.flatMap_append, List.flatMap_singleton]

theorem marked_of_build (h : build sense costs steps = .ok p) : p.Marked steps := by
  obtain ⟨hintegers, hbinaries⟩ := marks_of_build h
  refine ⟨?_, fun var => ?_, ?_, fun var => ?_⟩
  · rw [hintegers]
    exact pairwise_insertAll _ .nil
  · rw [← Array.mem_toList_iff, hintegers, mem_insertAll, List.mem_flatMap, (of_build h).size_eq]
    simp
  · rw [hbinaries]
    exact pairwise_insertAll _ .nil
  · rw [← Array.mem_toList_iff, hbinaries, mem_insertAll, List.mem_flatMap]
    simp

/-! ## Steps in any order -/

omit [Scalar α] in
theorem Step.isMark_of_mem_wholes {size var : Nat} (h : var ∈ step.wholes size) :
    step.isMark = true := by
  cases step with
  | integer v => rfl
  | binary v => rfl
  | allInteger => rfl
  | _ => exact absurd h List.not_mem_nil

/-- Programs of the same number of variables that were built with the same marking steps, in any
order and among any others, have the same marks. -/
theorem marks_eq_of_build {sense' : Sense} {costs' : Array α} {steps' : List (Step α)}
    (h : build sense costs steps = .ok p) (h' : build sense' costs' steps' = .ok q)
    (hsize : costs'.size = costs.size)
    (hmarks : ∀ step : Step α, step.isMark = true → (step ∈ steps' ↔ step ∈ steps)) :
    q.integers = p.integers ∧ q.binaries = p.binaries := by
  obtain ⟨hintegers, hbinaries⟩ := marks_of_build h
  obtain ⟨hintegers', hbinaries'⟩ := marks_of_build h'
  constructor
  · refine Array.toList_inj.mp ?_
    rw [hintegers, hintegers', hsize]
    refine insertAll_eq_of_mem_iff fun var => ?_
    rw [List.mem_flatMap, List.mem_flatMap]
    refine exists_congr fun step => and_congr_left fun hvar => ?_
    exact hmarks step (Step.isMark_of_mem_wholes hvar)
  · refine Array.toList_inj.mp ?_
    rw [hbinaries, hbinaries']
    refine insertAll_eq_of_mem_iff fun var => ?_
    rw [List.mem_flatMap, List.mem_flatMap]
    refine exists_congr fun step => and_congr_left fun hvar => ?_
    exact hmarks step (Step.isMark_of_mem_wholes (Step.wholes_of_zeroOnes 0 hvar))

/-- Whether a step is not refused by a program of so many variables. -/
def Step.Admissible (size : Nat) : Step α → Prop
  | .constant _ => True
  | .bounds var lower upper => var < size ∧ isNaN lower = false ∧ isNaN upper = false
  | .allBounds lower upper => 0 < size → isNaN lower = false ∧ isNaN upper = false
  | .integer var => var < size
  | .binary var => var < size
  | .allInteger => True
  | .row coefs rhs => coefs.size = size ∧ (∀ v ∈ coefs, isFinite v = true) ∧ isFinite rhs = true

instance {size : Nat} : (step : Step α) → Decidable (step.Admissible size)
  | .constant _ => inferInstanceAs (Decidable True)
  | .bounds var lower upper =>
    inferInstanceAs (Decidable (var < size ∧ isNaN lower = false ∧ isNaN upper = false))
  | .allBounds lower upper =>
    inferInstanceAs (Decidable (0 < size → isNaN lower = false ∧ isNaN upper = false))
  | .integer var => inferInstanceAs (Decidable (var < size))
  | .binary var => inferInstanceAs (Decidable (var < size))
  | .allInteger => inferInstanceAs (Decidable True)
  | .row coefs rhs => inferInstanceAs (Decidable (coefs.size = size ∧
      (∀ v ∈ coefs, isFinite v = true) ∧ isFinite rhs = true))

theorem valid_of_setAllBounds {lower upper : α} (h : p.setAllBounds lower upper = .ok q)
    (hsize : 0 < p.size) : isNaN lower = false ∧ isNaN upper = false := by
  obtain ⟨size, hsize⟩ := Nat.exists_eq_add_one.mpr hsize
  unfold setAllBounds at h
  rw [hsize, List.range_succ_eq_map, List.foldlM_cons, bind_eq_ok] at h
  obtain ⟨next, hfirst, -⟩ := h
  exact (setBounds_eq_ok hfirst).2.1

theorem exists_setAllBounds {lower upper : α}
    (h : 0 < p.size → isNaN lower = false ∧ isNaN upper = false) :
    ∃ q, p.setAllBounds lower upper = .ok q := by
  have hall : ∃ q, p.setAllBounds lower upper = .ok q ∧ q.size = p.size := by
    refine exists_foldlM_of_forall (P := fun r : Program α => r.size = p.size)
      (fun r hr var hvar => ?_) rfl
    have hlt := List.mem_range.mp hvar
    exact ⟨_, setBounds_ok (hr ▸ hlt) (h (Nat.zero_lt_of_lt hlt)), hr⟩
  obtain ⟨q, hq, -⟩ := hall
  exact ⟨q, hq⟩

omit [Scalar α] in
theorem exists_markAllInteger : ∃ q, p.markAllInteger = .ok q := by
  have hall : ∃ q, p.markAllInteger = .ok q ∧ q.size = p.size := by
    refine exists_foldlM_of_forall (P := fun r : Program α => r.size = p.size)
      (fun r hr var hvar => ?_) rfl
    have hlt := List.mem_range.mp hvar
    exact ⟨_, markInteger_ok (hr ▸ hlt), hr⟩
  obtain ⟨q, hq, -⟩ := hall
  exact ⟨q, hq⟩

theorem Step.admissible_of_apply (h : step.apply p = .ok q) : step.Admissible p.size := by
  cases step with
  | constant value => trivial
  | bounds var lower upper =>
    obtain ⟨hvar, hvalid, -⟩ := setBounds_eq_ok h
    exact ⟨hvar, hvalid⟩
  | allBounds lower upper => exact valid_of_setAllBounds h
  | integer var => exact (markInteger_eq_ok h).1
  | binary var => exact (markBinary_eq_ok h).1
  | allInteger => trivial
  | row coefs rhs =>
    obtain ⟨hsize, hcoefs, hrhs, -⟩ := addRow_eq_ok h
    exact ⟨hsize, hcoefs, hrhs⟩

theorem Step.Admissible.exists_apply (h : step.Admissible p.size) : ∃ q, step.apply p = .ok q := by
  cases step with
  | constant value => exact ⟨_, rfl⟩
  | bounds var lower upper => exact ⟨_, setBounds_ok h.1 h.2⟩
  | allBounds lower upper => exact exists_setAllBounds h
  | integer var => exact ⟨_, markInteger_ok h⟩
  | binary var => exact ⟨_, markBinary_ok h⟩
  | allInteger => exact exists_markAllInteger
  | row coefs rhs => exact ⟨_, addRow_ok h.1 h.2.1 h.2.2⟩

/-- Steps build a program if and only if each of them makes sense for its number of variables. -/
theorem exists_build_iff :
    (∃ p, build sense costs steps = .ok p) ↔ ∀ step ∈ steps, step.Admissible costs.size := by
  constructor
  · rintro ⟨p, h⟩
    refine (foldlM_induction (P := fun done r => r.BuiltFrom sense costs ∧
      ∀ step ∈ done, step.Admissible costs.size) (fun hstep ⟨hbuilt, hdone⟩ => ?_) h
      ⟨builtFrom_ofCosts sense costs, fun _ hstep => absurd hstep List.not_mem_nil⟩).2
    refine ⟨hbuilt.of_apply hstep, fun step hmem => ?_⟩
    rcases List.mem_append.mp hmem with hmem | hmem
    · exact hdone step hmem
    · rw [List.mem_singleton.mp hmem, ← hbuilt.size_eq]
      exact Step.admissible_of_apply hstep
  · intro h
    obtain ⟨p, hp, -⟩ := exists_foldlM_of_forall (P := fun r : Program α => r.BuiltFrom sense costs)
      (fun r hr step hmem => by
        obtain ⟨next, hnext⟩ := Step.Admissible.exists_apply (hr.size_eq ▸ h step hmem)
        exact ⟨next, hnext, hr.of_apply hnext⟩) (builtFrom_ofCosts sense costs)
    exact ⟨p, hp⟩

/-- In another order the steps of a built program build one with the same marks. -/
theorem exists_build_of_perm {steps' : List (Step α)} (h : build sense costs steps = .ok p)
    (hperm : steps'.Perm steps) : ∃ q, build sense costs steps' = .ok q ∧
      q.integers = p.integers ∧ q.binaries = p.binaries := by
  have hadmissible := exists_build_iff.mp ⟨p, h⟩
  obtain ⟨q, hq⟩ := exists_build_iff.mpr fun step hmem => hadmissible step (hperm.mem_iff.mp hmem)
  exact ⟨q, hq, marks_eq_of_build h hq rfl fun step _ => hperm.mem_iff⟩

/-! ## Built programs -/

/-- Every built program has one valid bound on each side and one finite entry of each row for every
variable. Its whole variables are those that a step marked as whole, as zero or one, or with all
others, and the ones marked as zero or one are among them; both are kept in ascending order, so the
place of a further one can be found by halving. The marks depend on the marking steps alone and not
on their order, and in any order all steps build a program. -/
theorem wellFormed_of_build {sense : Sense} {costs : Array Float} {steps : List (Step Float)}
    {p : Program Float} (hbuild : build sense costs steps = .ok p) :
    p.size = costs.size ∧ p.WellFormed ∧ p.ValidBounds ∧ p.Marked steps ∧
      (∀ var ∈ p.binaries, var ∈ p.integers) ∧
      (∀ var, insertSearched var p.integers = (insertAscending var p.integers.toList).toArray ∧
        insertSearched var p.binaries = (insertAscending var p.binaries.toList).toArray) ∧
      (∀ (sense' : Sense) (costs' : Array Float) (steps' : List (Step Float)) (q : Program Float),
        build sense' costs' steps' = .ok q → costs'.size = costs.size →
        (∀ step : Step Float, step.isMark = true → (step ∈ steps' ↔ step ∈ steps)) →
        q.integers = p.integers ∧ q.binaries = p.binaries) ∧
      ∀ steps' : List (Step Float), steps'.Perm steps → ∃ q, build sense costs steps' = .ok q ∧
        q.integers = p.integers ∧ q.binaries = p.binaries := by
  have hbuilt := of_build hbuild
  have hmarked := marked_of_build hbuild
  refine ⟨hbuilt.size_eq, hbuilt.wellFormed, validBounds_of_build hbuild, hmarked, ?_, ?_, ?_, ?_⟩
  · intro var hvar
    obtain ⟨step, hmem, hstep⟩ := (hmarked.mem_binaries var).mp hvar
    exact (hmarked.mem_integers var).mpr ⟨step, hmem, Step.wholes_of_zeroOnes p.size hstep⟩
  · intro var
    exact ⟨insertSearched_eq var hmarked.ascending_integers,
      insertSearched_eq var hmarked.ascending_binaries⟩
  · intro sense' costs' steps' q hbuild' hsize hmarks
    exact marks_eq_of_build hbuild hbuild' hsize hmarks
  · intro steps' hperm
    exact exists_build_of_perm hbuild hperm

namespace Mixed

/-- Marks of all kinds, one of them repeated, with other steps between them. -/
def mixed : List (Step Float) :=
  [.binary 2, .allBounds (-1.0) 4.0, .integer 0, .row #[1.0, 2.0, 3.0] 6.0, .integer 2, .binary 0]

theorem wellFormed_of_mixed : ∃ p, build .minimise #[1.0, 1.0, 1.0] mixed = .ok p ∧
    p.WellFormed ∧ p.ValidBounds ∧ p.Marked mixed ∧ (∀ var ∈ p.binaries, var ∈ p.integers) ∧
    insertSearched 1 p.integers = #[0, 1, 2] ∧
    ∃ q, build .minimise #[1.0, 1.0, 1.0] mixed.reverse = .ok q ∧
      q.integers = #[0, 2] ∧ q.binaries = #[0, 2] := by
  have hadmissible : ∀ step ∈ mixed, step.Admissible #[1.0, 1.0, (1.0 : Float)].size := by decide
  obtain ⟨p, hbuild⟩ := exists_build_iff.mpr hadmissible
  obtain ⟨hintegers, hbinaries⟩ := marks_of_build hbuild
  obtain ⟨-, hwell, hvalid, hmarked, hsubset, hsearched, -, horder⟩ := wellFormed_of_build hbuild
  obtain ⟨q, hq, hqi, hqb⟩ := horder mixed.reverse (List.reverse_perm mixed)
  refine ⟨p, hbuild, hwell, hvalid, hmarked, hsubset, ?_, q, hq, ?_, ?_⟩
  · rw [(hsearched 1).1, hintegers]
    rfl
  · rw [hqi]
    exact Array.toList_inj.mp hintegers
  · rw [hqb]
    exact Array.toList_inj.mp hbinaries

end Mixed

end Program

end BranchBound
