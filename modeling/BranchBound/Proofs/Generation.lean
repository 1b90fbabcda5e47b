import BranchBound.Bench.Instance
import BranchBound.Proofs.Building
import BranchBound.Proofs.Double.Unrounded
import BranchBound.Proofs.Vector

/-!
# Generated knapsacks in whole numbers

The numbers that are drawn for an item are fractions of `2 ^ 31` until they are cut off to whole
numbers, so no step of drawing them is rounded: the item after a state is the one that is drawn in
whole numbers (`reads_draw`), where its range can be read off (`Item.inRange_drawWhole`). While the
weights of all items stay below `2 ^ 53`, their sum and the half of it are not rounded either. With
that the whole knapsack is known (`exists_ofItems`, `generate_inRange`).
-/

namespace BranchBound.Bench

open Double

/-! ## Drawing items -/

/-- The upper 31 bits of a state. -/
def upperBits (s : UInt64) : ℕ := (s >>> 33).toNat

theorem upperBits_lt (s : UInt64) : upperBits s < 2 ^ 31 := by
  have hlt := s.toNat_lt
  unfold upperBits
  rw [UInt64.toNat_shiftRight, Nat.shiftRight_eq_div_pow]
  exact Nat.div_lt_of_lt_mul hlt

/-- The item drawn after a state, in whole numbers. -/
def Item.drawWhole (s : UInt64) : Item ℕ :=
  let s := nextState s
  let weight := 100 * upperBits s / 2 ^ 31 + 1
  let s := nextState s
  { weight, value := min (weight + 20 * upperBits s / 2 ^ 31) 100 }

/-- Whether the numbers of an item are whole ones. -/
structure Item.Reads (item : Item Float) (whole : Item ℕ) : Prop where
  weight : IsNatural item.weight whole.weight
  value : IsNatural item.value whole.value

/-- Whether the weight of an item is up to 100, and its value that much or up to 19 more, but not
above 100. -/
structure Item.InRange (item : Item ℕ) : Prop where
  one_le_weight : 1 ≤ item.weight
  weight_le : item.weight ≤ 100
  weight_le_value : item.weight ≤ item.value
  value_le : item.value ≤ min (item.weight + 19) 100

theorem Item.inRange_drawWhole (s : UInt64) : (drawWhole s).InRange := by
  have hweight := upperBits_lt (nextState s)
  have hvalue := upperBits_lt (nextState (nextState s))
  unfold drawWhole
  constructor <;> dsimp only <;> omega

theorem isNatural_hundred : IsNatural 100.0 100 := by
  show Exact.ofRat (signed .positive ((100 * 2 ^ 46 : ℕ) * 2 ^ (-46 : ℤ))) = _
  congr 1
  norm_num [signed]

theorem isNatural_twenty : IsNatural 20.0 20 := by
  show Exact.ofRat (signed .positive ((20 * 2 ^ 48 : ℕ) * 2 ^ (-48 : ℤ))) = _
  congr 1
  norm_num [signed]

/-- A state stands for a fraction of `2 ^ 31`. -/
theorem value_unit (s : UInt64) : value (unit s) = .ofRat (upperBits s / 2 ^ 31) := by
  have hlt : upperBits s < 2 ^ 53 := (upperBits_lt s).trans (by norm_num)
  have hden : value (Scalar.ofNat (Nat.pow 2 31)) = .ofRat (2 ^ 31) := by
    have hpow : IsNatural (Scalar.ofNat (Nat.pow 2 31)) (Nat.pow 2 31) :=
      isNatural_ofNat (by norm_num)
    rw [show value _ = _ from hpow]
    norm_num
  exact value_div_of_fraction (isNatural_ofNat hlt) hden (by norm_num)
    ⟨upperBits s, 31, hlt, by norm_num, rfl⟩

theorem value_unit_mul (s : UInt64) {x : Float} {k : ℕ} (hx : IsNatural x k)
    (hk : k ≤ 2 ^ 22) :
    value (unit s * x) = .ofRat ((k * upperBits s : ℕ) / 2 ^ 31) := by
  have hlt := upperBits_lt s
  have heq : (upperBits s : ℚ) / 2 ^ 31 * k = (k * upperBits s : ℕ) / 2 ^ 31 := by
    push_cast
    ring
  have hmul := value_mul_of_fraction (value_unit s) hx
    ⟨k * upperBits s, 31, by nlinarith, by norm_num, heq⟩
  rw [hmul, heq]

theorem isNatural_weight (s : UInt64) : IsNatural (Scalar.floor (unit s * 100.0) + 1.0)
    (100 * upperBits s / 2 ^ 31 + 1) := by
  have hlt := upperBits_lt s
  have hfloor := isNatural_floor (value_unit_mul s isNatural_hundred (by norm_num))
  have hone : IsNatural 1.0 1 := by rw [IsNatural, value_one, Nat.cast_one]
  exact hfloor.add hone (by omega)

theorem isNatural_value (s : UInt64) {x : Float} {w : ℕ} (hx : IsNatural x w) (hw : w ≤ 100) :
    IsNatural (Scalar.minNum (Scalar.floor (x + unit s * 20.0)) 100.0)
      (min (w + 20 * upperBits s / 2 ^ 31) 100) := by
  have hlt := upperBits_lt s
  have heq : (w : ℚ) + (20 * upperBits s : ℕ) / 2 ^ 31 =
      (w * 2 ^ 31 + 20 * upperBits s : ℕ) / 2 ^ 31 := by
    push_cast
    ring
  have hadd := value_add_of_fraction hx (value_unit_mul s isNatural_twenty (by norm_num))
    ⟨w * 2 ^ 31 + 20 * upperBits s, 31, by omega, by norm_num, heq⟩
  rw [heq] at hadd
  have hfloor := isNatural_floor hadd
  rw [show (w * 2 ^ 31 + 20 * upperBits s) / 2 ^ 31 = w + 20 * upperBits s / 2 ^ 31 by omega]
    at hfloor
  generalize Scalar.floor (x + unit s * 20.0) = y at hfloor
  have hmin : value (Scalar.minNum y 100.0) = Scalar.minNum (value y) (value 100.0) :=
    Lawful.value_minNum y 100.0
  rw [IsNatural, hmin, show value y = _ from hfloor, show value 100.0 = _ from isNatural_hundred,
    Exact.minNum_ofRat]
  push_cast
  rfl

/-- What is drawn in doubles is what is drawn in whole numbers. -/
theorem reads_draw (s : UInt64) : (Item.draw s).Reads (Item.drawWhole s) := by
  have hrange := Item.inRange_drawWhole s
  have hweight := isNatural_weight (nextState s)
  exact ⟨hweight, isNatural_value _ hweight hrange.weight_le⟩

/-! ## Building the program -/

/-- The program of given values when the first of its variables have been marked as zero or one. -/
def marked (values : Array Float) (k : ℕ) : Program Float :=
  { Program.ofCosts .maximise values with
    lower := tabulate values.size fun j => if j < k then 0.0 else -Scalar.inf
    upper := tabulate values.size fun j => if j < k then 1.0 else Scalar.inf
    integers := Array.range k
    binaries := Array.range k }

theorem insertAscending_range (k : ℕ) :
    (insertAscending k (Array.range k).toList).toArray = Array.range (k + 1) := by
  rw [Array.toList_range]
  refine Array.toList_inj.mp ?_
  rw [Array.toList_range]
  refine (pairwise_insertAscending k List.pairwise_lt_range).eq_of_mem_iff List.pairwise_lt_range
    fun w => ?_
  rw [mem_insertAscending, List.mem_range, List.mem_range]
  omega

/-- A bound that changes at the next variable has changed for one variable more. -/
theorem modify_bounds {n k : ℕ} {x y : Float} {f : Float → Float} (hf : f y = x) :
    (tabulate n fun j => if j < k then x else y).modify k f =
      tabulate n fun j => if j < k + 1 then x else y := by
  rw [modify_tabulate]
  refine tabulate_congr fun j _ => ?_
  rcases lt_trichotomy j k with hlt | rfl | hgt
  · rw [if_neg hlt.ne, if_pos hlt, if_pos (by omega)]
  · rw [if_pos rfl, if_neg (lt_irrefl j), if_pos j.lt_succ_self, hf]
  · rw [if_neg hgt.ne', if_neg hgt.not_gt, if_neg (by omega)]

/-- The next mark leaves its variable the bounds zero and one. -/
theorem markBinary_marked {values : Array Float} {k : ℕ} (hk : k < values.size) :
    (marked values k).markBinary k = .ok (marked values (k + 1)) := by
  have hlower : Scalar.maxNum (-Scalar.inf) (0.0 : Float) = 0.0 := rfl
  have hupper : Scalar.minNum Scalar.inf (1.0 : Float) = 1.0 := rfl
  rw [Program.markBinary_ok hk]
  unfold marked
  simp only [insertAscending_range, modify_bounds (f := (Scalar.maxNum · (0.0 : Float))) hlower,
    modify_bounds (f := (Scalar.minNum · (1.0 : Float))) hupper]

theorem foldlM_marks {values : Array Float} {k : ℕ} (hk : k ≤ values.size) :
    ((List.range k).map Program.Step.binary).foldlM Program.Step.apply
      (Program.ofCosts .maximise values) = .ok (marked values k) := by
  induction k with
  | zero =>
    unfold marked
    rw [Program.ofCosts, replicate_eq_tabulate, replicate_eq_tabulate]
    rfl
  | succ k ih =>
    rw [List.range_succ, List.map_append, List.foldlM_append, ih (by omega)]
    exact congrArg (· >>= pure) (markBinary_marked hk)

/-- The program of a knapsack: zero-or-one variables with one row. -/
def knapsack (weights values : Array Float) (capacity : Float) : Program Float where
  sense := .maximise
  costs := values
  constant := 0.0
  lower := Array.replicate values.size 0.0
  upper := Array.replicate values.size 1.0
  integers := Array.range values.size
  binaries := Array.range values.size
  rows := #[⟨weights, capacity⟩]

theorem build_knapsack {weights values : Array Float} {capacity : Float}
    (hsize : weights.size = values.size) (hweights : ∀ w ∈ weights, Scalar.isFinite w = true)
    (hcapacity : Scalar.isFinite capacity = true) :
    Program.build .maximise values ((List.range values.size).map Program.Step.binary ++
      [.row weights capacity]) = .ok (knapsack weights values capacity) := by
  have hall : ∀ x y : Float, (tabulate values.size fun j => if j < values.size then x else y) =
      Array.replicate values.size x := fun x y => by
    rw [replicate_eq_tabulate]
    exact tabulate_congr fun j hj => if_pos hj
  unfold Program.build
  rw [List.foldlM_append, foldlM_marks le_rfl]
  show (marked values values.size).addRow weights capacity >>= pure = _
  rw [Program.addRow_ok hsize hweights hcapacity]
  unfold marked knapsack
  rw [hall, hall]
  rfl

theorem ofItems_eq {items : List (Item Float)} {weights values : Array Float} {capacity : Float}
    (hweights : weights = (items.map Item.weight).toArray)
    (hvalues : values = (items.map Item.value).toArray)
    (hcapacity : capacity = Scalar.floor (Scalar.sum weights / 2.0))
    (hfinites : ∀ w ∈ weights, Scalar.isFinite w = true)
    (hfinite : Scalar.isFinite capacity = true) :
    Instance.ofItems items = .ok ⟨knapsack weights values capacity, capacity⟩ := by
  have hweightsSize : weights.size = items.length := by
    rw [hweights, List.size_toArray, List.length_map]
  have hvaluesSize : values.size = items.length := by
    rw [hvalues, List.size_toArray, List.length_map]
  have hbuild := build_knapsack (hweightsSize.trans hvaluesSize.symm) hfinites hfinite
  unfold Instance.ofItems
  rw [← hweights, ← hvalues]
  dsimp only
  rw [← hcapacity, ← hvaluesSize, hbuild]
  rfl

/-! ## Knapsacks -/

/-- So many items drawn one after the other, in whole numbers. -/
def drawWholes : ℕ → UInt64 → List (Item ℕ)
  | 0, _ => []
  | n + 1, s => Item.drawWhole s :: drawWholes n (nextState (nextState s))

theorem reads_drawItems (n : ℕ) (s : UInt64) :
    List.Forall₂ Item.Reads (drawItems n s) (drawWholes n s) := by
  induction n generalizing s with
  | zero => exact .nil
  | succ n ih => exact .cons (reads_draw s) (ih _)

theorem inRange_drawWholes (n : ℕ) (s : UInt64) : ∀ item ∈ drawWholes n s, item.InRange := by
  induction n generalizing s with
  | zero => exact List.forall_mem_nil _
  | succ n ih => exact List.forall_mem_cons.mpr ⟨Item.inRange_drawWhole s, ih _⟩

theorem length_drawWholes (n : ℕ) (s : UInt64) : (drawWholes n s).length = n :=
  (reads_drawItems n s).length_eq.symm.trans (length_drawItems n s)

theorem totalWeight_le (n : ℕ) (s : UInt64) :
    ((drawWholes n s).map Item.weight).sum ≤ 100 * n := by
  have hle := List.sum_le_card_nsmul ((drawWholes n s).map Item.weight) 100 fun w hw => by
    obtain ⟨item, hitem, rfl⟩ := List.mem_map.mp hw
    exact (inRange_drawWholes n s item hitem).weight_le
  rwa [List.length_map, length_drawWholes, smul_eq_mul, mul_comm] at hle

/-- Whether an instance is a knapsack of items with whole numbers: all its variables are zero or
one, with these very bounds, and its only row keeps the weights to the capacity. -/
structure Instance.Reads (drawn : Instance Float) (items : List (Item ℕ)) (capacity : ℕ) :
    Prop where
  sense : drawn.program.sense = .maximise
  constant : drawn.program.constant = 0.0
  size : drawn.program.size = items.length
  integers : drawn.program.integers = Array.range items.length
  binaries : drawn.program.binaries = Array.range items.length
  lower : drawn.program.lower = Array.replicate items.length 0.0
  upper : drawn.program.upper = Array.replicate items.length 1.0
  costs : List.Forall₂ IsNatural drawn.program.costs.toList (items.map Item.value)
  row : ∃ weights : Array Float, drawn.program.rows = #[⟨weights, drawn.capacity⟩] ∧
    List.Forall₂ IsNatural weights.toList (items.map Item.weight)
  capacity : IsNatural drawn.capacity capacity

theorem rightUnique_isNatural : Relator.RightUnique IsNatural := by
  intro x m n hm hn
  have hcast : Exact.ofRat m = Exact.ofRat n := hm.symm.trans hn
  exact Nat.cast_injective (Exact.ofRat.inj hcast)

/-- An instance is a knapsack of one list of items only. -/
theorem Instance.Reads.unique {drawn : Instance Float} {items items' : List (Item ℕ)}
    {capacity capacity' : ℕ} (h : drawn.Reads items capacity)
    (h' : drawn.Reads items' capacity') : items = items' ∧ capacity = capacity' := by
  obtain ⟨weights, hrow, hweights⟩ := h.row
  obtain ⟨weights', hrow', hweights'⟩ := h'.row
  obtain rfl : weights = weights' := by
    rw [hrow] at hrow'
    simpa using hrow'
  have hvalue := List.right_unique_forall₂' rightUnique_isNatural h.costs h'.costs
  have hweight := List.right_unique_forall₂' rightUnique_isNatural hweights hweights'
  refine ⟨?_, rightUnique_isNatural h.capacity h'.capacity⟩
  have hzip : ∀ items : List (Item ℕ),
      List.zipWith Item.mk (items.map Item.weight) (items.map Item.value) = items := fun items => by
    rw [List.zipWith_map, List.zipWith_self]
    exact List.map_id items
  rw [← hzip items, ← hzip items', hweight, hvalue]

/-- The knapsack of items with whole numbers is in whole numbers. -/
theorem exists_ofItems {items : List (Item Float)} {wholes : List (Item ℕ)}
    (h : List.Forall₂ Item.Reads items wholes) (hsum : (wholes.map Item.weight).sum < 2 ^ 53) :
    ∃ drawn : Instance Float, Instance.ofItems items = .ok drawn ∧
      drawn.Reads wholes ((wholes.map Item.weight).sum / 2) := by
  have hweights : List.Forall₂ IsNatural (items.map Item.weight) (wholes.map Item.weight) := by
    rw [List.forall₂_map_left_iff, List.forall₂_map_right_iff]
    exact h.imp fun _ _ => Item.Reads.weight
  have hvalues : List.Forall₂ IsNatural (items.map Item.value) (wholes.map Item.value) := by
    rw [List.forall₂_map_left_iff, List.forall₂_map_right_iff]
    exact h.imp fun _ _ => Item.Reads.value
  have hcapacity := isNatural_floor_half (isNatural_sum hweights hsum) hsum
  have hsize : (items.map Item.value).toArray.size = wholes.length := by
    rw [List.size_toArray, List.length_map, h.length_eq]
  obtain ⟨hfinites, -⟩ := (List.forall₂_and_left _ _).mp (hweights.imp fun _ _ hw =>
    ⟨hw.isFinite, hw⟩)
  refine ⟨_, ofItems_eq rfl rfl rfl (fun w hw => hfinites w (List.mem_toArray.mp hw))
    hcapacity.isFinite, ?_⟩
  exact
    { sense := rfl
      constant := rfl
      size := hsize
      integers := congrArg Array.range hsize
      binaries := congrArg Array.range hsize
      lower := congrArg (Array.replicate · 0.0) hsize
      upper := congrArg (Array.replicate · 1.0) hsize
      costs := hvalues
      row := ⟨_, rfl, hweights⟩
      capacity := hcapacity }

/-- From every seed a knapsack of any number of items is generated whose numbers are whole and in
range, with half of the total weight as its capacity. -/
theorem generate_inRange {n : ℕ} (seed : UInt64) (hn : 100 * n ≤ 2 ^ 53) :
    ∃ (drawn : Instance Float) (items : List (Item ℕ)) (capacity : ℕ),
      Instance.generate n seed = .ok drawn ∧ drawn.Reads items capacity ∧ items.length = n ∧
      (∀ item ∈ items, item.InRange) ∧ 2 * capacity ≤ (items.map Item.weight).sum ∧
      (items.map Item.weight).sum ≤ 2 * capacity + 1 := by
  have hsum : ((drawWholes n seed).map Item.weight).sum < 2 ^ 53 :=
    (totalWeight_le n seed).trans_lt (by omega)
  obtain ⟨drawn, hdrawn, hreads⟩ := exists_ofItems (reads_drawItems n seed) hsum
  refine ⟨drawn, drawWholes n seed, _, hdrawn, hreads, length_drawWholes n seed,
    inRange_drawWholes n seed, ?_, ?_⟩
  · omega
  · omega

/-- The seed seven draws three items of a total weight of 115. -/
theorem generate_inRange_three : 100 * 3 ≤ 2 ^ 53 ∧ ∃ drawn : Instance Float,
    let items : List (Item ℕ) := [⟨42, 45⟩, ⟨6, 19⟩, ⟨67, 82⟩]
    Instance.generate 3 7 = .ok drawn ∧ drawn.Reads items 57 ∧ items.length = 3 ∧
      (∀ item ∈ items, item.InRange) ∧ 2 * 57 ≤ (items.map Item.weight).sum ∧
      (items.map Item.weight).sum ≤ 2 * 57 + 1 := by
  have hn : 100 * 3 ≤ 2 ^ 53 := by norm_num
  obtain ⟨drawn, items, capacity, hdrawn, hreads, hlength, hrange, hlower, hupper⟩ :=
    generate_inRange 7 hn
  have hwholes : drawWholes 3 7 = [⟨42, 45⟩, ⟨6, 19⟩, ⟨67, 82⟩] := rfl
  obtain ⟨drawn', hdrawn', hreads'⟩ := exists_ofItems (reads_drawItems 3 7)
    ((totalWeight_le 3 7).trans_lt (by norm_num))
  obtain rfl := Except.ok.inj (hdrawn.symm.trans hdrawn')
  rw [hwholes] at hreads'
  obtain ⟨rfl, rfl⟩ := hreads.unique hreads'
  exact ⟨hn, drawn, hdrawn, hreads, hlength, hrange, hlower, hupper⟩

end BranchBound.Bench
