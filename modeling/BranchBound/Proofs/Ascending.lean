import BranchBound.Program
import Mathlib.Data.List.Sort

/-!
# Ascending arrays

Numbers can be put into one ascending order only. So it does not matter in which order they came
(`insertAll_eq_of_mem_iff`), nor how the place of one is looked for: `insertAscending` goes through
the others one after the other, and `insertSearched` halves the part of the array in which the
number can be until it is found or nothing is left. Over an ascending array the two agree
(`insertSearched_eq`); over any other the second may miss a number that is there.
-/

namespace BranchBound

/-! ## Insertion one by one -/

/-- Puts numbers into an ascending list, unless they are there. -/
def insertAll (new vs : List Nat) : List Nat := new.foldl (fun ws v => insertAscending v ws) vs

theorem insertAll_append (new new' vs : List Nat) :
    insertAll (new ++ new') vs = insertAll new' (insertAll new vs) := List.foldl_append

theorem mem_insertAll {new vs : List Nat} {w : Nat} : w ∈ insertAll new vs ↔ w ∈ new ∨ w ∈ vs := by
  induction new generalizing vs with
  | nil => simp [insertAll]
  | cons v rest ih =>
    show w ∈ insertAll rest (insertAscending v vs) ↔ _
    rw [ih, mem_insertAscending, List.mem_cons, or_assoc]
    exact or_left_comm

theorem pairwise_insertAll (new : List Nat) {vs : List Nat} (h : vs.Pairwise (· < ·)) :
    (insertAll new vs).Pairwise (· < ·) := by
  induction new generalizing vs with
  | nil => exact h
  | cons v rest ih => exact ih (pairwise_insertAscending v h)

/-- It does not matter in which order numbers are put in, or how often. -/
theorem insertAll_eq_of_mem_iff {new new' : List Nat} (h : ∀ v, v ∈ new ↔ v ∈ new') :
    insertAll new [] = insertAll new' [] :=
  (pairwise_insertAll new .nil).eq_of_mem_iff (pairwise_insertAll new' .nil) fun v => by
    rw [mem_insertAll, mem_insertAll, h]

/-! ## Search by halving -/

variable {vs : Array Nat} {v low high : Nat}

/-- Looks for a number among the entries from one index up to another, by halving. The result is the
index of the number or, as an error, the one at which it would have to be put in. -/
def search (vs : Array Nat) (v low high : Nat) (h : high ≤ vs.size) : Except Nat Nat :=
  if hlt : low < high then
    let mid := low + (high - low) / 2
    if vs[mid] < v then search vs v (mid + 1) high h
    else if v < vs[mid] then search vs v low mid (by omega)
    else .ok mid
  else .error low
termination_by high - low

/-- Puts a number into an ascending array, unless a search finds it there. -/
def insertSearched (v : Nat) (vs : Array Nat) : Array Nat :=
  match search vs v 0 vs.size le_rfl with
  | .ok _ => vs
  | .error i => (vs.toList.take i ++ v :: vs.toList.drop i).toArray

/-- Whether the entries outside a part of an ascending array leave a number no place but there. -/
structure Confines (vs : Array Nat) (v low high : Nat) : Prop where
  le : low ≤ high
  below : ∀ w ∈ vs.toList.take low, w < v
  above : ∀ w ∈ vs.toList.drop high, v < w

theorem confines_all (vs : Array Nat) (v : Nat) : Confines vs v 0 vs.size where
  le := Nat.zero_le _
  below w hw := absurd hw List.not_mem_nil
  above w hw := by
    rw [← Array.length_toList, List.drop_length] at hw
    exact absurd hw List.not_mem_nil

theorem getElem_le_of_ascending (hvs : vs.toList.Pairwise (· < ·)) {i j : Nat} (hij : i ≤ j)
    (hj : j < vs.size) : vs[i] ≤ vs[j] := by
  rcases hij.eq_or_lt with rfl | hlt
  · exact le_rfl
  · exact (List.pairwise_iff_getElem.mp hvs i j (by simpa using hlt.trans hj) (by simpa) hlt).le

/-- An entry that is too small rules out the ones before it. -/
theorem Confines.drop_half (hvs : vs.toList.Pairwise (· < ·)) (hc : Confines vs v low high)
    {mid : Nat} (hmid : mid < high) (hsize : mid < vs.size) (hlt : vs[mid] < v) :
    Confines vs v (mid + 1) high where
  le := hmid
  below w hw := by
    obtain ⟨j, hj, rfl⟩ := List.mem_take_iff_getElem.mp hw
    have hle : j ≤ mid := Nat.le_of_lt_succ (hj.trans_le (min_le_left _ _))
    exact (getElem_le_of_ascending hvs hle hsize).trans_lt hlt
  above := hc.above

/-- An entry that is too great rules out the ones after it. -/
theorem Confines.take_half (hvs : vs.toList.Pairwise (· < ·)) (hc : Confines vs v low high)
    {mid : Nat} (hmid : low ≤ mid) (hsize : mid < vs.size) (hlt : v < vs[mid]) :
    Confines vs v low mid where
  le := hmid
  below := hc.below
  above w hw := by
    obtain ⟨j, hj, rfl⟩ := List.mem_drop_iff_getElem.mp hw
    rw [Array.length_toList] at hj
    exact hlt.trans_le (getElem_le_of_ascending hvs (Nat.le_add_right mid j) (by omega))

/-- A search finds a number, or else the one place that is left for it. -/
theorem mem_or_confines_of_search (hvs : vs.toList.Pairwise (· < ·)) (hc : Confines vs v low high)
    (hsize : high ≤ vs.size) :
    match search vs v low high hsize with
    | .ok _ => v ∈ vs
    | .error i => Confines vs v i i := by
  fun_induction search vs v low high hsize with
  | case1 low high hsize hlt mid hbelow ih =>
    have hmid : mid < high := by omega
    exact ih (hc.drop_half hvs hmid (by omega) hbelow)
  | case2 low high hsize hlt mid _ habove ih =>
    have hmid : low ≤ mid := by omega
    exact ih (hc.take_half hvs hmid (by omega) habove)
  | case3 low high hsize hlt mid hbelow habove =>
    have heq : v = vs[mid] := by omega
    rw [heq]
    exact Array.getElem_mem _
  | case4 low high hsize hge =>
    obtain rfl : low = high := by have := hc.le; omega
    exact hc

/-! ## Insertion -/

theorem Confines.pairwise_insert (hvs : vs.toList.Pairwise (· < ·)) {i : Nat}
    (hc : Confines vs v i i) :
    (vs.toList.take i ++ v :: vs.toList.drop i).Pairwise (· < ·) := by
  rw [← List.take_append_drop i vs.toList, List.pairwise_append] at hvs
  obtain ⟨htake, hdrop, hacross⟩ := hvs
  refine List.pairwise_append.mpr ⟨htake, List.pairwise_cons.mpr ⟨hc.above, hdrop⟩, ?_⟩
  intro w hw u hu
  rcases List.mem_cons.mp hu with rfl | hu
  · exact hc.below w hw
  · exact hacross w hw u hu

theorem mem_take_append_cons_drop {i w : Nat} :
    w ∈ vs.toList.take i ++ v :: vs.toList.drop i ↔ w = v ∨ w ∈ vs.toList := by
  conv_rhs => rw [← List.take_append_drop i vs.toList]
  simp only [List.mem_append, List.mem_cons]
  exact or_left_comm

/-- Over an ascending array, halving puts a number where going through the entries puts it. -/
theorem insertSearched_eq (v : Nat) (hvs : vs.toList.Pairwise (· < ·)) :
    insertSearched v vs = (insertAscending v vs.toList).toArray := by
  have hfound := mem_or_confines_of_search hvs (confines_all vs v) le_rfl
  have hascending := pairwise_insertAscending v hvs
  unfold insertSearched
  cases hsearch : search vs v 0 vs.size le_rfl with
  | ok i =>
    rw [hsearch] at hfound
    refine Array.toList_inj.mp (hvs.eq_of_mem_iff hascending fun w => ?_)
    rw [mem_insertAscending, iff_or_self]
    rintro rfl
    exact Array.mem_toList_iff.mpr hfound
  | error i =>
    rw [hsearch] at hfound
    refine congrArg List.toArray ((hfound.pairwise_insert hvs).eq_of_mem_iff hascending fun w => ?_)
    rw [mem_take_append_cons_drop, mem_insertAscending]

end BranchBound
