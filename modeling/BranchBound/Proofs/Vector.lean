import BranchBound.Proofs.Exact
import Mathlib.Algebra.BigOperators.Group.Finset.Basic
import Mathlib.Algebra.BigOperators.Intervals

/-!
# Vectors of rationals

Vectors given by a function on indices (`tabulate`), and sums and products of those whose entries
are rational: they are the sums and products of rationals.
-/

namespace BranchBound

open Finset

/-! ## Tabulated vectors -/

/-- The vector with given entries. -/
def tabulate {β : Type} (n : Nat) (f : Nat → β) : Array β := (Array.range n).map f

section

variable {β γ δ : Type} {n : Nat}

@[simp] theorem size_tabulate (f : Nat → β) : (tabulate n f).size = n := by
  simp [tabulate]

theorem toList_tabulate (f : Nat → β) : (tabulate n f).toList = (List.range n).map f := by
  simp [tabulate]

theorem getElem?_tabulate (f : Nat → β) (j : Nat) :
    (tabulate n f)[j]? = if j < n then some (f j) else none := by
  by_cases h : j < n
  · simp [tabulate, h]
  · simp [tabulate, h]

theorem getElem?_tabulate_of_lt (f : Nat → β) {j : Nat} (h : j < n) :
    (tabulate n f)[j]? = some (f j) := by
  rw [getElem?_tabulate, if_pos h]

theorem getElem?_tabulate_eq_some {f : Nat → β} {j : Nat} {x : β} :
    (tabulate n f)[j]? = some x ↔ j < n ∧ f j = x := by
  rw [getElem?_tabulate]
  split
  · rename_i h
    rw [Option.some.injEq]
    exact ⟨fun heq => ⟨h, heq⟩, fun heq => heq.2⟩
  · rename_i h
    exact iff_of_false (fun heq => nomatch heq) fun heq => h heq.1

/-- A vector is tabulated by its entries. -/
theorem eq_tabulate {xs : Array β} {f : Nat → β} (hsize : xs.size = n)
    (h : ∀ j < n, xs[j]? = some (f j)) : xs = tabulate n f := by
  refine Array.ext_getElem? fun j => ?_
  rw [getElem?_tabulate]
  by_cases hj : j < n
  · rw [if_pos hj, h j hj]
  · rw [if_neg hj, Array.getElem?_eq_none (by omega)]

/-- Every vector is tabulated by values that have what its entries have. -/
theorem exists_eq_tabulate_of {P : β → Prop} {xs : Array β} (hsize : xs.size = n) {d : β}
    (hd : P d) (h : ∀ v ∈ xs, P v) : ∃ f, xs = tabulate n f ∧ ∀ j, P (f j) := by
  have hentry : ∀ {j : Nat} (hj : j < xs.size), xs.getD j d = xs[j] := fun hj => dif_pos hj
  refine ⟨fun j => xs.getD j d, eq_tabulate hsize fun j hj => ?_, fun j => ?_⟩
  · rw [← hsize] at hj
    rw [Array.getElem?_eq_getElem hj, hentry hj]
  · dsimp only
    by_cases hj : j < xs.size
    · rw [hentry hj]
      exact h _ (Array.getElem_mem hj)
    · rw [show xs.getD j d = d from dif_neg hj]
      exact hd

/-- Every vector is tabulated; beyond its entries any value will do. -/
theorem exists_eq_tabulate {xs : Array β} (hsize : xs.size = n) (default : β) :
    ∃ f, xs = tabulate n f := by
  obtain ⟨f, hf, -⟩ := exists_eq_tabulate_of (P := fun _ => True) hsize (d := default) trivial
    fun _ _ => trivial
  exact ⟨f, hf⟩

theorem tabulate_one (f : Nat → β) : tabulate 1 f = #[f 0] := by
  symm
  refine eq_tabulate rfl fun j hj => ?_
  obtain rfl : j = 0 := by omega
  rfl

theorem tabulate_congr {f g : Nat → β} (h : ∀ j < n, f j = g j) : tabulate n f = tabulate n g :=
  eq_tabulate (size_tabulate f) fun j hj => by rw [getElem?_tabulate_of_lt f hj, h j hj]

theorem mem_tabulate {f : Nat → β} {x : β} : x ∈ tabulate n f ↔ ∃ j < n, f j = x := by
  simp [tabulate]

theorem zipWith_tabulate (h : β → γ → δ) (f : Nat → β) (g : Nat → γ) :
    Array.zipWith h (tabulate n f) (tabulate n g) = tabulate n fun j => h (f j) (g j) := by
  refine eq_tabulate (by simp) fun j hj => ?_
  rw [Array.getElem?_zipWith, getElem?_tabulate_of_lt f hj, getElem?_tabulate_of_lt g hj]

theorem zip_tabulate (f : Nat → β) (g : Nat → γ) :
    (tabulate n f).zip (tabulate n g) = tabulate n fun j => (f j, g j) :=
  zipWith_tabulate Prod.mk f g

theorem map_tabulate (h : β → γ) (f : Nat → β) :
    (tabulate n f).map h = tabulate n fun j => h (f j) := by
  simp [tabulate, Function.comp_def]

theorem replicate_eq_tabulate (n : Nat) (x : β) : Array.replicate n x = tabulate n fun _ => x :=
  eq_tabulate Array.size_replicate fun j hj => by rw [Array.getElem?_replicate, if_pos hj]

theorem modify_tabulate (f : Nat → β) (i : Nat) (g : β → β) :
    (tabulate n f).modify i g = tabulate n fun j => if j = i then g (f j) else f j := by
  refine eq_tabulate (by rw [Array.size_modify, size_tabulate]) fun j hj => ?_
  rw [Array.getElem?_modify, getElem?_tabulate_of_lt f hj]
  by_cases hij : i = j
  · rw [if_pos hij, if_pos hij.symm, Option.map_some]
  · rw [if_neg hij, if_neg (Ne.symm hij)]

theorem setIfInBounds_tabulate (f : Nat → β) (i : Nat) (x : β) :
    (tabulate n f).setIfInBounds i x = tabulate n (Function.update f i x) := by
  refine eq_tabulate (by simp) fun j hj => ?_
  by_cases hij : i = j
  · subst hij
    rw [Array.getElem?_setIfInBounds_self_of_lt (by simpa using hj), Function.update_self]
  · rw [Array.getElem?_setIfInBounds_ne hij, getElem?_tabulate_of_lt f hj,
      Function.update_of_ne (fun h => hij h.symm)]

theorem all_tabulate {f : Nat → β} {p : β → Bool} :
    (tabulate n f).all p = true ↔ ∀ j < n, p (f j) = true := by
  rw [Array.all_eq_true_iff_forall_mem]
  constructor
  · intro h j hj
    exact h _ (mem_tabulate.mpr ⟨j, hj, rfl⟩)
  · intro h x hx
    obtain ⟨j, hj, rfl⟩ := mem_tabulate.mp hx
    exact h j hj

theorem any_tabulate {f : Nat → β} {p : β → Bool} :
    (tabulate n f).any p = true ↔ ∃ j < n, p (f j) = true := by
  rw [Array.any_eq_true']
  constructor
  · rintro ⟨x, hx, hp⟩
    obtain ⟨j, hj, rfl⟩ := mem_tabulate.mp hx
    exact ⟨j, hj, hp⟩
  · rintro ⟨j, hj, hp⟩
    exact ⟨f j, mem_tabulate.mpr ⟨j, hj, rfl⟩, hp⟩

end

/-! ## Sums -/

namespace Exact

/-- The vector of given rationals. -/
def vector (n : Nat) (f : Nat → ℚ) : Array Exact := tabulate n fun j => ofRat (f j)

theorem vector_congr {n : Nat} {f g : Nat → ℚ} (h : ∀ j < n, f j = g j) : vector n f = vector n g :=
  tabulate_congr fun j hj => congrArg ofRat (h j hj)

theorem eq_of_vector_eq {n : Nat} {f g : Nat → ℚ} (h : vector n f = vector n g) {j : Nat}
    (hj : j < n) : f j = g j := by
  have hentry := congrArg (·[j]?) h
  dsimp only [vector] at hentry
  rw [getElem?_tabulate_of_lt _ hj, getElem?_tabulate_of_lt _ hj] at hentry
  exact ofRat.inj (Option.some.inj hentry)

/-- A vector that differs from another one at one index only is that one, updated there. -/
theorem vector_eq_update {n : Nat} {f g : Nat → ℚ} {i : Nat} (h : ∀ j < n, j ≠ i → g j = f j) :
    vector n g = vector n (Function.update f i (g i)) := by
  refine vector_congr fun j hj => ?_
  by_cases hij : j = i
  · rw [hij, Function.update_self]
  · rw [Function.update_of_ne hij, h j hj hij]

theorem foldl_add {ι : Type} (f : ι → ℚ) (l : List ι) (start : ℚ) :
    (l.map fun i => ofRat (f i)).foldl (· + ·) (ofRat start) = ofRat (start + (l.map f).sum) := by
  induction l generalizing start with
  | nil => rw [List.map_nil, List.foldl_nil, List.map_nil, List.sum_nil, add_zero]
  | cons i rest ih =>
    rw [List.map_cons, List.foldl_cons, ofRat_add, ih, List.map_cons, List.sum_cons, add_assoc]

/-- The sum of a list of rationals. -/
theorem sum_map {ι : Type} (f : ι → ℚ) (l : List ι) :
    Scalar.sum (l.map fun i => ofRat (f i)).toArray = ofRat (l.map f).sum := by
  unfold Scalar.sum
  rw [zero_eq, neg_ofRat, neg_zero, List.foldl_toArray, foldl_add, zero_add]

theorem sum_range_map (n : Nat) (f : Nat → ℚ) :
    ((List.range n).map f).sum = ∑ j ∈ range n, f j := by
  induction n with
  | zero => rfl
  | succ n ih => rw [List.range_succ, List.map_append, List.sum_append, ih, sum_range_succ]; simp

theorem sum_vector (n : Nat) (f : Nat → ℚ) :
    Scalar.sum (vector n f) = ofRat (∑ j ∈ range n, f j) := by
  have hlist : vector n f = ((List.range n).map fun j => ofRat (f j)).toArray := by
    unfold vector
    rw [← toList_tabulate, Array.toArray_toList]
  rw [hlist, sum_map, sum_range_map]

theorem dot_vector (n : Nat) (f g : Nat → ℚ) :
    Scalar.dot (vector n f) (vector n g) = ofRat (∑ j ∈ range n, f j * g j) := by
  unfold Scalar.dot
  have hprod : Array.zipWith (· * ·) (vector n f) (vector n g) = vector n fun j => f j * g j := by
    unfold vector
    rw [zipWith_tabulate]
    rfl
  rw [hprod, sum_vector]

/-- A vector of finite numbers is one of rationals. -/
theorem exists_eq_vector {xs : Array Exact} (h : ∀ v ∈ xs, Scalar.isFinite v = true) :
    ∃ f, xs = vector xs.size f := by
  have hentry : ∀ j, ∃ q : ℚ, j < xs.size → xs[j]? = some (ofRat q) := by
    intro j
    by_cases hj : j < xs.size
    · obtain ⟨q, hq⟩ := isFinite_iff.mp (h xs[j] (Array.getElem_mem hj))
      exact ⟨q, fun _ => by rw [Array.getElem?_eq_getElem hj, hq]⟩
    · exact ⟨0, fun hlt => absurd hlt hj⟩
  choose f hf using hentry
  exact ⟨f, eq_tabulate rfl hf⟩

theorem isFinite_of_mem_vector {n : Nat} {f : Nat → ℚ} {v : Exact} (h : v ∈ vector n f) :
    Scalar.isFinite v = true := by
  obtain ⟨j, -, rfl⟩ := mem_tabulate.mp h
  rfl

theorem all_isFinite_vector {n : Nat} {f : Nat → ℚ} : (vector n f).all Scalar.isFinite = true :=
  Array.all_eq_true_iff_forall_mem.mpr fun _ => isFinite_of_mem_vector

end Exact

end BranchBound
