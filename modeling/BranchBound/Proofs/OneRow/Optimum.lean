import BranchBound.Proofs.OneRow.Placing
import Mathlib.Algebra.Order.BigOperators.Group.Finset
import Mathlib.Algebra.BigOperators.Ring.Finset
import Mathlib.Tactic.FieldSimp

/-!
# The optimum over a box

What `solveBox` makes of a box in which the activity of every variable has a lowest value: the box
has no point within the row, or the point it comes to is a best one (`solveBox_cases`).

The proof is that of weak duality. The price of the row turns the certificates of the single
variables into one of the point: at that price every variable is where it costs least, and the row
is used up unless the price is zero.
-/

namespace BranchBound

open Exact Finset

namespace Exact

/-! ## Scaling -/

section

variable {q : ℚ} {v w : Exact}

theorem mul_posInf_of_pos (hq : 0 < q) : ofRat q * .posInf = .posInf := by
  show infTimes q = _
  rw [infTimes, if_neg hq.ne', if_pos hq]

theorem mul_negInf_of_pos (hq : 0 < q) : ofRat q * .negInf = .negInf := by
  show (infTimes q).neg = _
  rw [infTimes, if_neg hq.ne', if_pos hq]
  rfl

theorem mul_posInf_of_neg (hq : q < 0) : ofRat q * .posInf = .negInf := by
  show infTimes q = _
  rw [infTimes, if_neg hq.ne, if_neg (not_lt.mpr hq.le)]

theorem mul_negInf_of_neg (hq : q < 0) : ofRat q * .negInf = .posInf := by
  show (infTimes q).neg = _
  rw [infTimes, if_neg hq.ne, if_neg (not_lt.mpr hq.le)]
  rfl

theorem mul_nan : ofRat q * .nan = .nan := rfl

theorem eq_posInf_of_mul_of_pos (hq : 0 < q) (h : ofRat q * v = .posInf) : v = .posInf := by
  cases v <;> simp_all [mul_negInf_of_pos hq, mul_nan]

theorem eq_negInf_of_mul_of_pos (hq : 0 < q) (h : ofRat q * v = .negInf) : v = .negInf := by
  cases v <;> simp_all [mul_posInf_of_pos hq, mul_nan]

theorem eq_negInf_of_mul_of_neg (hq : q < 0) (h : ofRat q * v = .posInf) : v = .negInf := by
  cases v <;> simp_all [mul_posInf_of_neg hq, mul_nan]

theorem eq_posInf_of_mul_of_neg (hq : q < 0) (h : ofRat q * v = .negInf) : v = .posInf := by
  cases v <;> simp_all [mul_negInf_of_neg hq, mul_nan]

theorem mul_le_mul_of_pos (hq : 0 < q) : ofRat q * v ≤ ofRat q * w ↔ v ≤ w := by
  cases v <;> cases w <;> simp [mul_posInf_of_pos hq, mul_negInf_of_pos hq, mul_nan, hq]

theorem mul_le_mul_of_neg (hq : q < 0) : ofRat q * v ≤ ofRat q * w ↔ w ≤ v := by
  cases v <;> cases w <;> simp [mul_posInf_of_neg hq, mul_negInf_of_neg hq, mul_nan, hq]

theorem mul_lt_mul_of_pos (hq : 0 < q) : ofRat q * v < ofRat q * w ↔ v < w := by
  cases v <;> cases w <;> simp [mul_posInf_of_pos hq, mul_negInf_of_pos hq, mul_nan, hq]

theorem mul_lt_mul_of_neg (hq : q < 0) : ofRat q * v < ofRat q * w ↔ w < v := by
  cases v <;> cases w <;> simp [mul_posInf_of_neg hq, mul_negInf_of_neg hq, mul_nan, hq]

end

end Exact

namespace OneRow

/-! ## Columns of a box -/

section

variable {n : Nat} {d a : Nat → ℚ} {l u : Nat → Exact} {j : Nat}

/-- The column of a variable with given cost, coefficient and bounds. -/
def column (d a : Nat → ℚ) (l u : Nat → Exact) (j : Nat) : Column Exact :=
  ⟨j, .ofRat (d j), .ofRat (a j), l j, u j⟩

theorem columns_tabulate {α : Type} [Scalar α] (d a l u : Nat → α) :
    columns (tabulate n d) (tabulate n a) (tabulate n l) (tabulate n u) =
      (List.range n).map fun j => ⟨j, d j, a j, l j, u j⟩ := by
  unfold columns
  rw [zip_tabulate, zip_tabulate, zip_tabulate, toList_tabulate]
  refine List.ext_getElem? fun j => ?_
  by_cases hj : j < n
  · simp [hj]
  · simp [hj]

/-- A range of a variable is one of its activities. -/
theorem within_column_iff (hne : a j ≠ 0) {z : ℚ} :
    (column d a l u j).Within (a j * z) ↔ l j ≤ .ofRat z ∧ .ofRat z ≤ u j := by
  unfold Column.Within Column.low Column.high column
  rw [zero_eq, ← ofRat_mul]
  simp only [ofRat_lt]
  rcases lt_or_gt_of_ne hne with hneg | hpos
  · rw [if_neg (not_lt.mpr hneg.le), if_neg (not_lt.mpr hneg.le), mul_le_mul_of_neg hneg,
      mul_le_mul_of_neg hneg]
    exact and_comm
  · rw [if_pos hpos, if_pos hpos, mul_le_mul_of_pos hpos, mul_le_mul_of_pos hpos]

/-- An activity is inside its range if the variable is inside its own. -/
theorem inside_column_iff (hne : a j ≠ 0) {z : ℚ} :
    (column d a l u j).Inside (a j * z) ↔ l j < .ofRat z ∧ .ofRat z < u j := by
  unfold Column.Inside Column.low Column.high column
  rw [zero_eq, ← ofRat_mul]
  simp only [ofRat_lt]
  rcases lt_or_gt_of_ne hne with hneg | hpos
  · rw [if_neg (not_lt.mpr hneg.le), if_neg (not_lt.mpr hneg.le), mul_lt_mul_of_neg hneg,
      mul_lt_mul_of_neg hneg]
    exact and_comm
  · rw [if_pos hpos, if_pos hpos, Exact.mul_lt_mul_of_pos hpos, Exact.mul_lt_mul_of_pos hpos]

theorem low_le_high (hne : a j ≠ 0) (hle : l j ≤ u j) :
    (column d a l u j).low ≤ (column d a l u j).high := by
  unfold Column.low Column.high column
  rw [zero_eq]
  simp only [ofRat_lt]
  rcases lt_or_gt_of_ne hne with hneg | hpos
  · rw [if_neg (not_lt.mpr hneg.le), if_neg (not_lt.mpr hneg.le), mul_le_mul_of_neg hneg]
    exact hle
  · rw [if_pos hpos, if_pos hpos, mul_le_mul_of_pos hpos]
    exact hle

/-- The value of a variable that is not in the row is in its range, and none costs less. -/
theorem resting_best (hle : l j ≤ u j) (hl : l j ≠ .posInf) (hu : u j ≠ .negInf) {q : ℚ}
    (hq : (column d a l u j).resting = .ofRat q) :
    (l j ≤ .ofRat q ∧ .ofRat q ≤ u j) ∧
      ∀ z : ℚ, l j ≤ .ofRat z → .ofRat z ≤ u j → d j * q ≤ d j * z := by
  have hqq : Exact.ofRat q ≤ .ofRat q := le_refl_of_valid (by simp)
  unfold Column.resting column at hq
  rw [zero_eq] at hq
  simp only [ofRat_lt] at hq
  split_ifs at hq with hpos hneg hfl hfu
  · rw [hq] at hle ⊢
    refine ⟨⟨hqq, hle⟩, fun z hz _ => ?_⟩
    exact mul_le_mul_of_nonneg_left ((ofRat_le _ _).mp hz) hpos.le
  · rw [hq] at hle ⊢
    refine ⟨⟨hle, hqq⟩, fun z _ hz => ?_⟩
    exact mul_le_mul_of_nonpos_left ((ofRat_le _ _).mp hz) hneg.le
  all_goals
    have hzero : d j = 0 := le_antisymm (not_lt.mp hpos) (not_lt.mp hneg)
    refine ⟨?_, fun z _ _ => by rw [hzero, zero_mul, zero_mul]⟩
  · rw [hq] at hle ⊢
    exact ⟨hqq, hle⟩
  · rw [hq] at hle ⊢
    exact ⟨hle, hqq⟩
  · obtain ⟨hvl, hvu⟩ := valid_of_le hle
    rw [← hq]
    cases hlj : l j <;> cases huj : u j <;> simp_all

end

/-! ## Points of a box -/

/-- Whether the first `n` coordinates of a point are within bounds. -/
def InBounds (n : Nat) (l u : Nat → Exact) (z : Nat → ℚ) : Prop :=
  ∀ j < n, l j ≤ .ofRat (z j) ∧ .ofRat (z j) ≤ u j

namespace InBounds

variable {n : Nat} {l u : Nat → Exact} {z : Nat → ℚ} (h : InBounds n l u z) {j : Nat} (hj : j < n)

include h hj

theorem le : l j ≤ u j := Exact.le_trans (h j hj).1 (h j hj).2

theorem lower_ne_posInf : l j ≠ .posInf := fun hinf => by
  have hlow := (h j hj).1
  rw [hinf] at hlow
  exact not_posInf_le_ofRat _ hlow

theorem upper_ne_negInf : u j ≠ .negInf := fun hinf => by
  have hhigh := (h j hj).2
  rw [hinf] at hhigh
  exact not_ofRat_le_negInf _ hhigh

end InBounds

/-- A point within bounds and, up to the allowance, within a row, that no point within both
beats. -/
structure Optimum (n : Nat) (d a : Nat → ℚ) (l u : Nat → Exact) (b : ℚ) (x : Nat → ℚ) : Prop where
  inBounds : InBounds n l u x
  row_le : ∑ j ∈ range n, a j * x j ≤ b + allowance b
  best : ∀ z, InBounds n l u z → ∑ j ∈ range n, a j * z j ≤ b →
    ∑ j ∈ range n, d j * x j ≤ ∑ j ∈ range n, d j * z j

/-- Whether finite bounds are whole. -/
def WholeBounds (n : Nat) (l : Nat → Exact) : Prop := ∀ j < n, ∀ q : ℚ, l j = .ofRat q → q ∈ wholes

/-- A point whose activities are whole, and whose coordinates off the row are. -/
def WholeActivities (n : Nat) (a x : Nat → ℚ) : Prop :=
  ∀ j < n, a j * x j ∈ wholes ∧ (a j = 0 → x j ∈ wholes)

/-! ## Columns of the row -/

/-- The variables of the row. -/
def inRow (n : Nat) (a : Nat → ℚ) : List Nat := (List.range n).filter fun j => !decide (a j = 0)

/-- The variables off the row. -/
def offRow (n : Nat) (a : Nat → ℚ) : List Nat := (List.range n).filter fun j => decide (a j = 0)

/-- The columns of the row over a box. -/
def rowColumns (n : Nat) (d a : Nat → ℚ) (l u : Nat → Exact) : List (Column Exact) :=
  (inRow n a).map (column d a l u)

section

variable {n : Nat} {d a lo : Nat → ℚ} {l u : Nat → Exact} {b : ℚ}

theorem mem_inRow {j : Nat} : j ∈ inRow n a ↔ j < n ∧ a j ≠ 0 := by
  simp [inRow]

theorem mem_offRow {j : Nat} : j ∈ offRow n a ↔ j < n ∧ a j = 0 := by
  simp [offRow]

theorem mem_rowColumns {c : Column Exact} :
    c ∈ rowColumns n d a l u ↔ ∃ j < n, a j ≠ 0 ∧ column d a l u j = c := by
  unfold rowColumns
  rw [List.mem_map]
  simp only [mem_inRow, and_assoc]

theorem vars_rowColumns : (rowColumns n d a l u).map Column.var = inRow n a := by
  unfold rowColumns
  rw [List.map_map]
  exact List.map_id _

theorem nodup_rowColumns : ((rowColumns n d a l u).map Column.var).Nodup := by
  rw [vars_rowColumns]
  exact List.nodup_range.filter _

/-- A sum over the columns of the row is one over all variables. -/
theorem sum_rowColumns {g g' : Nat → ℚ} (hrow : ∀ j < n, a j ≠ 0 → g j = g' j)
    (hfree : ∀ j < n, a j = 0 → g' j = 0) :
    ((rowColumns n d a l u).map fun c => g c.var).sum = ∑ j ∈ range n, g' j := by
  have hmap : (rowColumns n d a l u).map (fun c => g c.var) = (inRow n a).map g' := by
    unfold rowColumns
    rw [List.map_map]
    refine List.map_congr_left fun j hj => ?_
    obtain ⟨hlt, hne⟩ := mem_inRow.mp hj
    exact hrow j hlt hne
  rw [hmap, inRow, sum_map_filter_of_eq_zero, sum_range_map]
  intro j hj hzero
  exact hfree j (List.mem_range.mp hj) (by simpa using hzero)

theorem inRow_of_mem (hle : ∀ j < n, l j ≤ u j)
    (hlow : ∀ j < n, a j ≠ 0 → (column d a l u j).low = .ofRat (lo j)) :
    ∀ c ∈ rowColumns n d a l u, c.InRow d a lo := by
  intro c hc
  obtain ⟨j, hj, hne, rfl⟩ := mem_rowColumns.mp hc
  exact ⟨rfl, rfl, hne, hlow j hj hne, low_le_high hne (hle j hj)⟩

/-- No point within bounds has a lower activity than the lowest activities together. -/
theorem sum_low_le (hlow : ∀ j < n, a j ≠ 0 → (column d a l u j).low = .ofRat (lo j))
    {z : Nat → ℚ} (hz : InBounds n l u z) :
    ((rowColumns n d a l u).map fun c => lo c.var).sum ≤ ∑ j ∈ range n, a j * z j := by
  have hactivity : ((rowColumns n d a l u).map fun c => lo c.var).sum =
      ∑ j ∈ range n, if a j = 0 then 0 else lo j :=
    sum_rowColumns (fun j _ hne => (if_neg hne).symm) fun j _ hzero => if_pos hzero
  rw [hactivity]
  refine Finset.sum_le_sum fun j hj => ?_
  rw [Finset.mem_range] at hj
  split
  · rename_i hzero
    rw [hzero, zero_mul]
  · rename_i hne
    have hwithin := ((within_column_iff (d := d) hne).mpr (hz j hj)).1
    rwa [hlow j hj hne, ofRat_le] at hwithin

/-! ## Weak duality -/

/-- Placed activities and best values off the row make a best point. -/
theorem Placed.best {price : ℚ} {x y z : Nat → ℚ}
    (h : Placed d a lo b (rowColumns n d a l u) y price)
    (hx : ∀ j < n, a j ≠ 0 → a j * x j = y j)
    (hfree : ∀ j < n, a j = 0 → ∀ w : ℚ, l j ≤ .ofRat w → .ofRat w ≤ u j → d j * x j ≤ d j * w)
    (hz : InBounds n l u z) (hrow : ∑ j ∈ range n, a j * z j ≤ b) :
    ∑ j ∈ range n, d j * x j ≤ ∑ j ∈ range n, d j * z j := by
  -- at the price, every variable of `x` costs no more than that of `z`
  have hterm : ∀ j ∈ range n,
      price * (a j * x j) + d j * x j ≤ price * (a j * z j) + d j * z j := by
    intro j hj
    rw [Finset.mem_range] at hj
    by_cases hzero : a j = 0
    · have hle := hfree j hj hzero (z j) (hz j hj).1 (hz j hj).2
      rw [hzero, zero_mul, zero_mul, mul_zero, zero_add, zero_add]
      exact hle
    · have hle := h.cheapest _ (mem_rowColumns.mpr ⟨j, hj, hzero, rfl⟩) (a j * z j)
        ((within_column_iff hzero).mpr (hz j hj))
      have hscale : ∀ w : ℚ, (price - -d j / a j) * (a j * w) = price * (a j * w) + d j * w := by
        intro w
        field_simp
        ring
      have hy : (price - -d j / a j) * y j ≤ (price - -d j / a j) * (a j * z j) := hle
      rwa [← hx j hj hzero, hscale, hscale] at hy
  have hsum := Finset.sum_le_sum hterm
  rw [sum_add_distrib, sum_add_distrib, ← mul_sum, ← mul_sum] at hsum
  have hactivity : ((rowColumns n d a l u).map fun c => y c.var).sum = ∑ j ∈ range n, a j * x j :=
    sum_rowColumns (fun j hj hne => (hx j hj hne).symm) fun j _ hzero => by rw [hzero, zero_mul]
  -- and what the row costs is free, or `x` uses all of it
  rcases h.tight with hprice | htight
  · rw [hprice, zero_mul, zero_mul, zero_add, zero_add] at hsum
    exact hsum
  · rw [hactivity] at htight
    have hmul := mul_le_mul_of_nonneg_left (hrow.trans htight) h.price_nonneg
    linarith

end

/-! ## Solving over a box -/

/-- The numbers of a program with at most one row. Without a row they are those of `0 ≤ 0`. -/
structure Reads (r : OneRow Exact) (n : Nat) (d a : Nat → ℚ) (b : ℚ) : Prop where
  costs : r.costs = vector n d
  row : r.row? = some ⟨vector n a, .ofRat b⟩ ∨ r.row? = none ∧ (∀ j < n, a j = 0) ∧ b = 0

section

variable {r : OneRow Exact} {n : Nat} {d a rest : Nat → ℚ} {b : ℚ} {l u : Nat → Exact}

theorem columnsOver_eq (h : r.Reads n d a b) :
    r.columnsOver (tabulate n l) (tabulate n u) = (List.range n).map (column d a l u) := by
  unfold columnsOver
  rcases h.row with hrow | ⟨hrow, hzero, -⟩
  · rw [hrow, h.costs]
    exact columns_tabulate _ _ _ _
  · have hzeros : (Array.replicate r.costs.size 0.0 : Array Exact) = vector n a := by
      rw [h.costs]
      refine eq_tabulate (by simp [vector]) fun j hj => ?_
      simp [vector, hj, hzero j hj]
    rw [hrow]
    dsimp only
    rw [hzeros, h.costs]
    exact columns_tabulate _ _ _ _

theorem rowColumns_eq_nil (hzero : ∀ j < n, a j = 0) : rowColumns n d a l u = [] := by
  rw [List.eq_nil_iff_forall_not_mem]
  intro c hc
  obtain ⟨j, hj, hne, -⟩ := mem_rowColumns.mp hc
  exact hne (hzero j hj)

/-- Without columns in the row nothing is left to do. -/
theorem solveRow_nil (f : Nat → ℚ) :
    solveRow (.ofRat 0) [] (vector n f) = .solved (vector n f) := by
  have hempty : ∀ c ∈ ([] : List (Column Exact)), c.InRow f f f := fun c hc => nomatch hc
  rw [solveRow, pivot?_eq_none hempty]
  rcases solveBounded_cases hempty List.nodup_nil 0 with ⟨hlt, -⟩ | ⟨y, -, -, -, hsolved⟩
  · exact absurd hlt (lt_irrefl 0)
  · dsimp only
    rw [hsolved]
    simp

/-- The variables off the row take their best values one after the other. -/
theorem foldl_resting
    (hrest : ∀ c ∈ (offRow n a).map (column d a l u), c.resting = .ofRat (rest c.var)) :
    ((offRow n a).map (column d a l u)).foldl (fun x c => x.setIfInBounds c.var c.resting)
      (vector n fun _ => 0) = vector n fun j => if a j = 0 then rest j else 0 := by
  rw [foldl_set_vector _ _ hrest]
  refine vector_congr fun j hj => ?_
  have hvar : j ∈ ((offRow n a).map (column d a l u)).map Column.var ↔ a j = 0 := by
    rw [List.map_map]
    show j ∈ (offRow n a).map id ↔ _
    rw [List.map_id, mem_offRow]
    exact ⟨fun hj => hj.2, fun hzero => ⟨hj, hzero⟩⟩
  simp only [hvar]

theorem filter_columnsOver_free (h : r.Reads n d a b) :
    (r.columnsOver (tabulate n l) (tabulate n u)).filter (fun c => c.coef == 0.0) =
      (offRow n a).map (column d a l u) := by
  rw [columnsOver_eq h, List.filter_map]
  simp only [Function.comp_def, column, zero_eq, beq_ofRat]
  rfl

theorem filter_columnsOver_bound (h : r.Reads n d a b) :
    (r.columnsOver (tabulate n l) (tabulate n u)).filter (fun c => !(c.coef == 0.0)) =
      rowColumns n d a l u := by
  rw [columnsOver_eq h, List.filter_map]
  simp only [Function.comp_def, column, zero_eq, beq_ofRat]
  rfl

/-- The variables off the row take their best values, and the row is solved on from there. -/
theorem solveBox_eq (h : r.Reads n d a b)
    (hrest : ∀ j < n, a j = 0 → (column d a l u j).resting = .ofRat (rest j)) :
    r.solveBox (tabulate n l) (tabulate n u) =
      solveRow (.ofRat b) (rowColumns n d a l u)
        (vector n fun j => if a j = 0 then rest j else 0) := by
  have hmem : ∀ c ∈ (offRow n a).map (column d a l u), c.resting = .ofRat (rest c.var) := by
    intro c hc
    obtain ⟨j, hj, rfl⟩ := List.mem_map.mp hc
    rw [mem_offRow] at hj
    exact hrest j hj.1 hj.2
  have hany : (((offRow n a).map (column d a l u)).any fun c => !Scalar.isFinite c.resting) =
      false := by
    rw [List.any_eq_false]
    intro c hc
    rw [hmem c hc]
    exact Bool.false_ne_true
  have hzeros : (Array.replicate r.costs.size 0.0 : Array Exact) = vector n fun _ => 0 := by
    rw [h.costs]
    refine eq_tabulate (by simp [vector]) fun j hj => ?_
    simp [vector, hj]
  unfold solveBox
  dsimp only
  rw [filter_columnsOver_free h, filter_columnsOver_bound h, hany, hzeros, foldl_resting hmem]
  rcases h.row with hrow | ⟨hrow, hzero, rfl⟩
  · rw [hrow]
    rfl
  · rw [hrow, rowColumns_eq_nil hzero, solveRow_nil]
    rfl

/-- The ends of the activities of a row are whole if its coefficients and bounds are. -/
theorem wholeEnds_rowColumns {lo : Nat → ℚ} (ha : ∀ j < n, a j ∈ wholes) (hl : WholeBounds n l)
    (hu : WholeBounds n u)
    (hlow : ∀ j < n, a j ≠ 0 → (column d a l u j).low = .ofRat (lo j)) :
    WholeEnds lo (rowColumns n d a l u) := by
  have hend : ∀ {j : Nat} {v : Exact} {y : ℚ}, j < n → a j ≠ 0 → v = l j ∨ v = u j →
      .ofRat (a j) * v = .ofRat y → y ∈ wholes := by
    intro j v y hj hne hv hy
    have heq := eq_ofRat_div_of_mul_eq hne hy
    have hwhole : y / a j ∈ wholes := by
      rcases hv with rfl | rfl
      · exact hl j hj _ heq
      · exact hu j hj _ heq
    rw [← mul_div_cancel₀ y hne]
    exact wholes.mul_mem (ha j hj) hwhole
  constructor
  · intro c hc
    obtain ⟨j, hj, hne, rfl⟩ := mem_rowColumns.mp hc
    have hy := hlow j hj hne
    unfold Column.low at hy
    split at hy
    · exact hend hj hne (Or.inl rfl) hy
    · exact hend hj hne (Or.inr rfl) hy
  · intro c hc hi hy
    obtain ⟨j, hj, hne, rfl⟩ := mem_rowColumns.mp hc
    unfold Column.high at hy
    split at hy
    · exact hend hj hne (Or.inr rfl) hy
    · exact hend hj hne (Or.inl rfl) hy

theorem whole_resting {j : Nat} (hj : j < n) (hl : WholeBounds n l) (hu : WholeBounds n u) {q : ℚ}
    (hq : (column d a l u j).resting = .ofRat q) : q ∈ wholes := by
  unfold Column.resting column at hq
  rw [zero_eq] at hq
  split_ifs at hq
  · exact hl j hj q hq
  · exact hu j hj q hq
  · exact hl j hj q hq
  · exact hu j hj q hq
  · rw [← Exact.ofRat.inj hq]
    exact wholes.zero_mem

/-- Placed activities and best values off the row are an optimum. -/
theorem Placed.optimum {lo x y : Nat → ℚ} {price : ℚ}
    (h : Placed d a lo b (rowColumns n d a l u) y price) (hle : ∀ j < n, l j ≤ u j)
    (hl : ∀ j < n, l j ≠ .posInf) (hu : ∀ j < n, u j ≠ .negInf)
    (hrest : ∀ j < n, a j = 0 → (column d a l u j).resting = .ofRat (rest j))
    (hx : ∀ j < n, a j ≠ 0 → a j * x j = y j) (hoff : ∀ j, a j = 0 → x j = rest j) :
    Optimum n d a l u b x where
  inBounds := by
    intro j hj
    by_cases hzero : a j = 0
    · rw [hoff j hzero]
      exact (resting_best (hle j hj) (hl j hj) (hu j hj) (hrest j hj hzero)).1
    · have hwithin := h.within _ (mem_rowColumns.mpr ⟨j, hj, hzero, rfl⟩)
      rw [show (column d a l u j).var = j from rfl, ← hx j hj hzero] at hwithin
      exact (within_column_iff hzero).mp hwithin
  row_le := by
    have htotal := h.total_le
    rwa [sum_rowColumns (fun j hj hne => (hx j hj hne).symm) fun j _ hzero => by
      rw [hzero, zero_mul]] at htotal
  best := by
    intro z hz hrow
    refine h.best hx (fun j hj hzero w hlw hwu => ?_) hz hrow
    rw [hoff j hzero]
    exact (resting_best (hle j hj) (hl j hj) (hu j hj) (hrest j hj hzero)).2 w hlw hwu

/-- Over a whole row with whole bounds they are whole. -/
theorem Placed.wholeActivities {lo x y : Nat → ℚ} {price : ℚ}
    (h : Placed d a lo b (rowColumns n d a l u) y price)
    (hlow : ∀ j < n, a j ≠ 0 → (column d a l u j).low = .ofRat (lo j))
    (hrest : ∀ j < n, a j = 0 → (column d a l u j).resting = .ofRat (rest j))
    (hx : ∀ j < n, a j ≠ 0 → a j * x j = y j) (hoff : ∀ j, a j = 0 → x j = rest j)
    (ha : ∀ j < n, a j ∈ wholes) (hb : b ∈ wholes) (hl : WholeBounds n l)
    (hu : WholeBounds n u) : WholeActivities n a x := by
  intro j hj
  constructor
  · by_cases hzero : a j = 0
    · rw [hzero, zero_mul]
      exact wholes.zero_mem
    · rw [hx j hj hzero]
      exact h.whole (wholeEnds_rowColumns ha hl hu hlow) hb _
        (mem_rowColumns.mpr ⟨j, hj, hzero, rfl⟩)
  · intro hzero
    rw [hoff j hzero]
    exact whole_resting hj hl hu (hrest j hj hzero)

/-- The point that has placed activities in the row and given values off it. -/
theorem exists_placed_point (n : Nat) (d a : Nat → ℚ) (l u : Nat → Exact) (y rest : Nat → ℚ) :
    ∃ x : Nat → ℚ, (vector n fun j => if j ∈ (rowColumns n d a l u).map Column.var then y j / a j
        else if a j = 0 then rest j else 0) = vector n x ∧
      (∀ j < n, a j ≠ 0 → a j * x j = y j) ∧ ∀ j, a j = 0 → x j = rest j := by
  refine ⟨fun j => if a j = 0 then rest j else y j / a j, vector_congr fun j hj => ?_,
    fun j _ hne => ?_, fun j hzero => if_pos hzero⟩
  · rw [vars_rowColumns]
    by_cases hzero : a j = 0
    · rw [if_neg fun hmem => (mem_inRow.mp hmem).2 hzero, if_pos hzero, if_pos hzero]
    · rw [if_pos (mem_inRow.mpr ⟨hj, hzero⟩), if_neg hzero]
  · dsimp only
    rw [if_neg hne, mul_div_cancel₀ _ hne]

/-- Solving over a box finds that no point of the box is within the row, or comes to an optimum,
which has whole activities if the row and the bounds are whole. -/
theorem solveBox_cases {lo : Nat → ℚ} (h : r.Reads n d a b) (hle : ∀ j < n, l j ≤ u j)
    (hl : ∀ j < n, l j ≠ .posInf) (hu : ∀ j < n, u j ≠ .negInf)
    (hlow : ∀ j < n, a j ≠ 0 → (column d a l u j).low = .ofRat (lo j))
    (hrest : ∀ j < n, a j = 0 → (column d a l u j).resting = .ofRat (rest j)) :
    (r.solveBox (tabulate n l) (tabulate n u) = .infeasible ∧
      ∀ z, InBounds n l u z → b < ∑ j ∈ range n, a j * z j) ∨
    ∃ x, r.solveBox (tabulate n l) (tabulate n u) = .solved (vector n x) ∧
      Optimum n d a l u b x ∧
      ((∀ j < n, a j ∈ wholes) → b ∈ wholes → WholeBounds n l → WholeBounds n u →
        WholeActivities n a x) := by
  have hrow := inRow_of_mem hle hlow
  rw [solveBox_eq h hrest, solveRow, pivot?_eq_none hrow]
  dsimp only
  rcases solveBounded_cases hrow nodup_rowColumns b with
    ⟨hlt, hinfeasible⟩ | ⟨y, price, hy, -, hsolved⟩
  · exact Or.inl ⟨hinfeasible n _, fun z hz => lt_of_lt_of_le hlt (sum_low_le hlow hz)⟩
  · obtain ⟨x, hpoint, hx, hoff⟩ := exists_placed_point n d a l u y rest
    refine Or.inr ⟨x, ?_, hy.optimum hle hl hu hrest hx hoff,
      hy.wholeActivities hlow hrest hx hoff⟩
    rw [hsolved, hpoint]

end

end OneRow

end BranchBound
