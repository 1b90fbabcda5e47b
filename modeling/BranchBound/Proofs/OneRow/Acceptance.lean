import BranchBound.Proofs.OneRow.Balance
import BranchBound.Proofs.OneRow.Corners
import BranchBound.Proofs.OneRow.Indexing
import BranchBound.Search.Visit

/-!
# Accepted points

The solver and the validator compute the activity of a row in different orders and with different
tolerances. Over a box of moderate numbers (`Moderate`) they agree: the point of an optimal answer
is one that the validator accepts (`optimal_is_accepted`), so a search that validates does not turn
the node down. Elsewhere it may be, even if all finite bounds are one: if a coefficient is great
beside the right-hand side (`Swamped`), if a cost is invalid (`Unpriced`), or if the activities add
up to more than a double (`Overflowing`).

The rounding errors of both are counted together. They grow with the number of variables and with
the activities at finite bounds, and as long as these are small beside the right-hand side, they and
the tolerance of the solver are within the tolerance of the validator (`violation_le`).
-/

namespace BranchBound

open Double

/-- The magnitude of a double, zero if it is infinite or invalid. -/
def Double.magnitude (x : Float) : ℚ :=
  match value x with
  | .ofRat q => |q|
  | _ => 0

theorem Double.magnitude_of_value {x : Float} {q : ℚ} (h : value x = .ofRat q) :
    magnitude x = |q| := by
  unfold magnitude
  rw [h]

theorem Double.magnitude_nonneg (x : Float) : 0 ≤ magnitude x := by
  unfold magnitude
  split
  · exact abs_nonneg _
  · exact le_rfl

theorem Double.magnitude_zero : magnitude 0.0 = 0 := by
  rw [magnitude_of_value value_zero, abs_zero]

theorem Double.magnitude_one : magnitude 1.0 = 1 := by
  rw [magnitude_of_value value_one, abs_one]

theorem Double.magnitude_inf : magnitude Scalar.inf = 0 := by
  unfold magnitude
  rw [value_posInf]

theorem Double.magnitude_neg (x : Float) : magnitude (-x) = magnitude x := by
  unfold magnitude
  rw [value_neg]
  cases value x with
  | ofRat q => exact abs_neg q
  | nan | posInf | negInf => rfl

namespace OneRow

/-! ## Moderate boxes -/

/-- The greatest activity at a finite bound, before it is rounded. -/
def Column.weight (c : Column Float) : ℚ :=
  magnitude c.coef * max (magnitude c.lower) (magnitude c.upper)

/-- How great a right-hand side and the activities at finite bounds are together. -/
def scale (rhs : Float) (cols : List (Column Float)) : ℚ :=
  1 + magnitude rhs + (cols.map Column.weight).sum

/-- Whether the numbers of a variable are moderate. It has something on each side of its bounds. In
the row it has a valid cost, and finite bounds that are not too great.

The cost has to be valid because nothing compares with the gain of one that is not. If such a
variable is the pivot, no other variable takes its place or rests at its price, the slack is
infinite, and whatever gains is raised over the right-hand side (`Unpriced`). -/
structure Column.Moderate (c : Column Float) : Prop where
  lower : c.lower < Scalar.inf
  upper : -Scalar.inf < c.upper
  cost : (c.coef == 0.0) = false → Scalar.isNaN c.cost = false
  bounds : (c.coef == 0.0) = false → magnitude c.lower ≤ span ∧ magnitude c.upper ≤ span

/-- Whether the numbers of a program over a box are moderate: those of each variable, and the
activities at finite bounds, for as many variables as there are, beside the right-hand side.

The second condition on the scale is about overflow, which the first does not rule out if the
right-hand side is itself great. What the solver adds up may be finite when the partial sums of the
validator, which has the pivot among them, are not (`Overflowing`). -/
structure Moderate (r : OneRow Float) (lower upper : Array Float) : Prop where
  columns : ∀ c ∈ r.columnsOver lower upper, c.Moderate
  fine : ∀ row, r.row? = some row →
    (r.costs.size + 1) * scale row.rhs (r.columnsOver lower upper) ≤
      2 ^ 25 * (1 + magnitude row.rhs)
  range : ∀ row, r.row? = some row → scale row.rhs (r.columnsOver lower upper) ≤ 2 ^ 1000

theorem moderate_of_row {r : OneRow Float} {lower upper : Array Float} {row : Row Float}
    (hrow : r.row? = some row) (hcolumns : ∀ c ∈ r.columnsOver lower upper, c.Moderate)
    (hfine : (r.costs.size + 1) * scale row.rhs (r.columnsOver lower upper) ≤
      2 ^ 25 * (1 + magnitude row.rhs))
    (hrange : scale row.rhs (r.columnsOver lower upper) ≤ 2 ^ 1000) : r.Moderate lower upper := by
  refine ⟨hcolumns, fun row' hsome => ?_, fun row' hsome => ?_⟩
  all_goals obtain rfl := Option.some.inj (hrow.symm.trans hsome)
  · exact hfine
  · exact hrange

theorem Column.weight_nonneg (c : Column Float) : 0 ≤ c.weight :=
  mul_nonneg (magnitude_nonneg _) (le_max_of_le_left (magnitude_nonneg _))

theorem valid_of_lt_inf {v : Float} (h : v < Scalar.inf) : value v ≠ .posInf ∧ value v ≠ .nan := by
  rw [lt_iff, value_posInf] at h
  exact ⟨fun hinf => Exact.lt_irrefl _ (hinf ▸ h), fun hnan => Exact.not_nan_lt _ (hnan ▸ h)⟩

theorem valid_of_neg_inf_lt {v : Float} (h : -Scalar.inf < v) :
    value v ≠ .negInf ∧ value v ≠ .nan := by
  rw [lt_iff, value_negInf] at h
  exact ⟨fun hinf => Exact.lt_irrefl _ (hinf ▸ h), fun hnan => Exact.not_lt_nan _ (hnan ▸ h)⟩

/-! ## Columns by index -/

/-- The column of a variable. -/
def columnAt (d a l u : Nat → Float) (j : Nat) : Column Float := ⟨j, d j, a j, l j, u j⟩

/-- The columns of the row. -/
def rowColumnsAt (n : ℕ) (d a l u : Nat → Float) : List (Column Float) :=
  ((List.range n).filter fun j => !(a j == 0.0)).map (columnAt d a l u)

section

variable {n : ℕ} {d a l u x : Nat → Float} {coef w y : Nat → ℚ} {b size : ℚ}

theorem mem_rowColumnsAt {c : Column Float} :
    c ∈ rowColumnsAt n d a l u ↔ ∃ j < n, (a j == 0.0) = false ∧ columnAt d a l u j = c := by
  unfold rowColumnsAt
  rw [List.mem_map]
  simp only [List.mem_filter, List.mem_range, Bool.not_eq_true', and_assoc]

theorem rowColumnsAt_sublist :
    (rowColumnsAt n d a l u).Sublist ((List.range n).map (columnAt d a l u)) :=
  List.filter_sublist.map _

theorem nodup_rowColumnsAt : ((rowColumnsAt n d a l u).map Column.var).Nodup := by
  unfold rowColumnsAt
  rw [List.map_map, show Column.var ∘ columnAt d a l u = id from rfl, List.map_id]
  exact List.nodup_range.filter _

/-- A sum over the columns of the row is one over all variables. -/
theorem sum_rowColumnsAt (g : Nat → ℚ) : ((rowColumnsAt n d a l u).map fun c => g c.var).sum =
    ((List.range n).map fun j => if (a j == 0.0) = true then 0 else g j).sum := by
  unfold rowColumnsAt
  rw [List.map_map]
  refine Eq.trans (congrArg List.sum (List.map_congr_left fun j hj => ?_))
    (sum_map_filter_of_eq_zero fun j _ hzero => ?_)
  · have hne := (List.mem_filter.mp hj).2
    exact (if_neg (by simpa using hne)).symm
  · exact if_pos (by simpa using hzero)

/-- A column of the row with moderate numbers has measures, if its weight is in range. -/
theorem measured_of_moderate {j : Nat} (hcoef : value (a j) = .ofRat (coef j))
    (hne : (a j == 0.0) = false) (h : (columnAt d a l u j).Moderate)
    (hweight : (columnAt d a l u j).weight ≤ ceiling) :
    (columnAt d a l u j).Measured coef fun j => (columnAt d a l u j).weight := by
  obtain ⟨hlower, hupper⟩ := h.bounds hne
  have hzero : coef j ≠ 0 := fun hzero => by
    refine Bool.eq_false_iff.mp hne ((beq_iff _ _).mpr ?_)
    show value (a j) = _ ∧ value (a j) ≠ _
    rw [hcoef, hzero, value_zero]
    exact ⟨rfl, (nomatch ·)⟩
  have hle : ∀ {v : Float} {q : ℚ}, value v = .ofRat q →
      magnitude v ≤ max (magnitude (l j)) (magnitude (u j)) →
      |coef j * q| ≤ (columnAt d a l u j).weight := fun hv hmagnitude => by
    rw [abs_mul, ← magnitude_of_value hcoef, ← magnitude_of_value hv]
    exact mul_le_mul_of_nonneg_left hmagnitude (magnitude_nonneg _)
  refine ⟨isNaN_eq_false_iff.mp (h.cost hne), hcoef, hzero, ?_, ?_, Column.weight_nonneg _, hweight⟩
  · cases hl : value (l j) with
    | ofRat q =>
      refine Or.inr ⟨q, hl, ?_, hle hl (le_max_left _ _)⟩
      rw [← magnitude_of_value hl]
      exact hlower
    | negInf => exact Or.inl hl
    | posInf => exact absurd hl (valid_of_lt_inf h.lower).1
    | nan => exact absurd hl (valid_of_lt_inf h.lower).2
  · cases hu : value (u j) with
    | ofRat q =>
      refine Or.inr ⟨q, hu, ?_, hle hu (le_max_right _ _)⟩
      rw [← magnitude_of_value hu]
      exact hupper
    | posInf => exact Or.inl hu
    | negInf => exact absurd hu (valid_of_neg_inf_lt h.upper).1
    | nan => exact absurd hu (valid_of_neg_inf_lt h.upper).2

/-- The columns of the row of a moderate box have measures, and the row is of moderate size. -/
theorem scaled_of_moderate {rhs : Float} (hcoef : ∀ j < n, value (a j) = .ofRat (coef j))
    (hrhs : value rhs = .ofRat b)
    (hcolumns : ∀ j < n, (columnAt d a l u j).Moderate)
    (hfine : (n + 1) * scale rhs ((List.range n).map (columnAt d a l u)) ≤
      2 ^ 25 * (1 + magnitude rhs))
    (hrange : scale rhs ((List.range n).map (columnAt d a l u)) ≤ 2 ^ 1000) :
    Scaled coef (fun j => (columnAt d a l u j).weight) n b
      (scale rhs ((List.range n).map (columnAt d a l u))) (rowColumnsAt n d a l u) := by
  have hweights : ((rowColumnsAt n d a l u).map Column.weight).sum ≤
      (((List.range n).map (columnAt d a l u)).map Column.weight).sum :=
    sum_le_of_sublist rowColumnsAt_sublist (fun _ _ => le_rfl) fun c _ => c.weight_nonneg
  have hceiling : 64 * scale rhs ((List.range n).map (columnAt d a l u)) ≤ ceiling := by
    refine (mul_le_mul_of_nonneg_left hrange (by norm_num)).trans ?_
    rw [show (64 : ℚ) * 2 ^ 1000 = 2 ^ 1006 by rw [show (64 : ℚ) = 2 ^ 6 by norm_num, ← pow_add]]
    exact pow_le_pow_right₀ one_le_two (by norm_num)
  rw [magnitude_of_value hrhs] at hfine
  refine ⟨fun c hc => ?_, nodup_rowColumnsAt, ?_, ?_, hceiling, hfine⟩
  · have hmem : c.weight ≤ ((rowColumnsAt n d a l u).map Column.weight).sum :=
      List.single_le_sum (fun q hq => by
        obtain ⟨e, -, rfl⟩ := List.mem_map.mp hq
        exact e.weight_nonneg) _ (List.mem_map_of_mem hc)
    obtain ⟨j, hj, hne, rfl⟩ := mem_rowColumnsAt.mp hc
    refine measured_of_moderate (hcoef j hj) hne (hcolumns j hj) ?_
    have hweight := (columnAt d a l u j).weight_nonneg
    have hrhs := magnitude_nonneg rhs
    unfold scale at hceiling
    linarith
  · exact rowColumnsAt_sublist.length_le.trans (by simp)
  · have hvars : ((rowColumnsAt n d a l u).map fun c => (columnAt d a l u c.var).weight) =
        (rowColumnsAt n d a l u).map Column.weight := List.map_congr_left fun c hc => by
      obtain ⟨j, -, -, rfl⟩ := mem_rowColumnsAt.mp hc
      rfl
    rw [hvars]
    unfold scale
    rw [magnitude_of_value hrhs]
    linarith

/-! ## The row -/

/-- The activity of a variable of the row, and zero off the row. -/
def activityAt (a : Nat → Float) (y : Nat → ℚ) (j : Nat) : ℚ :=
  if (a j == 0.0) = true then 0 else y j

/-- What the validator multiplies is the activity of a level, up to rounding. -/
theorem exists_products {x₀ : Array Float}
    (hrests : Rests (rowColumnsAt n d a l u) x₀ (tabulate n x) y) :
    ∃ p : Nat → ℚ, ∀ j ∈ List.range n, value (a j * x j) = .ofRat (p j) ∧
      |p j - activityAt a y j| ≤ Column.rounding (activityAt a y j) := by
  have hentry : ∀ j, ∃ q, j ∈ List.range n → value (a j * x j) = .ofRat q ∧
      |q - activityAt a y j| ≤ Column.rounding (activityAt a y j) := by
    intro j
    by_cases hj : j < n
    · obtain ⟨ξ, hξ⟩ := isFinite_iff.mp
        (hrests.finite (x j) (mem_tabulate.mpr ⟨j, hj, rfl⟩))
      unfold activityAt
      by_cases hzero : (a j == 0.0) = true
      · rw [if_pos hzero]
        refine ⟨0, fun _ => ⟨?_, ?_⟩⟩
        · have hfaithful := (rounded_mul (a j) (x j)).toFaithful
          rw [((beq_iff _ _).mp hzero).1, value_zero, hξ, Exact.ofRat_mul, zero_mul] at hfaithful
          exact hfaithful.value_eq value_zero (nomatch ·)
        · rw [sub_self, abs_zero]
          exact Column.rounding_nonneg 0
      · obtain ⟨level, hvalue, hsettles⟩ := hrests.on _
          (mem_rowColumnsAt.mpr ⟨j, hj, Bool.eq_false_iff.mpr hzero, rfl⟩) (x j)
          (getElem?_tabulate_of_lt x hj)
        obtain ⟨-, q, hq, herror⟩ := hsettles.written ξ (hvalue ▸ hξ)
        rw [hvalue] at hq
        rw [if_neg hzero]
        exact ⟨q, fun _ => ⟨hq, herror⟩⟩
    · exact ⟨0, fun hmem => absurd (List.mem_range.mp hmem) hj⟩
  choose p hp using hentry
  exact ⟨p, hp⟩

variable (h : Scaled coef w n b size (rowColumnsAt n d a l u))

include h

/-- The errors of the products come to a few units together. -/
theorem sum_rounding_le {z : Nat → ℚ} (hz : ((List.range n).map fun j => |z j|).sum ≤ 11 * size) :
    ((List.range n).map fun j => Column.rounding (z j)).sum ≤ 41 * slop n size := by
  have hsum : ((List.range n).map fun j => Column.rounding (z j)).sum =
      3 * (roundoff * ((List.range n).map fun j => |z j|).sum) + n * (8 * roundoff) := by
    unfold Column.rounding
    rw [List.sum_map_add, List.sum_map_mul_left, List.sum_map_mul_left, List.map_const',
      List.sum_replicate, List.length_range, nsmul_eq_mul]
  have hcount : (n : ℚ) * roundoff ≤ slop n size := by
    unfold slop
    rw [mul_comm]
    refine mul_le_mul_of_nonneg_left ?_ roundoff_pos.le
    have hmul := mul_le_mul_of_nonneg_left h.one_le (by positivity : (0 : ℚ) ≤ n + 1)
    linarith
  have hshare := mul_le_mul_of_nonneg_left hz roundoff_pos.le
  rw [hsum]
  linarith [h.roundoff_mul_le]

/-- The products are together within the right-hand side, up to some errors, and none of them is
great. -/
theorem exists_products_le {x₀ : Array Float}
    (hrests : Rests (rowColumnsAt n d a l u) x₀ (tabulate n x) y)
    (hbalanced : Balanced n b size (rowColumnsAt n d a l u) y) :
    ∃ p : Nat → ℚ, (∀ j ∈ List.range n, value (a j * x j) = .ofRat (p j)) ∧
      ((List.range n).map p).sum ≤ b + leeway * (1 + |b|) + 61 * slop n size ∧
      ((List.range n).map fun j => |p j|).sum ≤ 12 * size := by
  obtain ⟨p, hp⟩ := exists_products hrests
  have htotal : ((List.range n).map (activityAt a y)).sum ≤
      b + leeway * (1 + |b|) + 20 * slop n size := by
    refine le_trans (le_of_eq ?_) hbalanced.total_le
    exact (sum_rowColumnsAt y).symm
  have habs : ((List.range n).map fun j => |activityAt a y j|).sum ≤ 11 * size := by
    have hcomp : (fun j => |activityAt a y j|) = activityAt a fun j => |y j| :=
      funext fun j => (apply_ite abs _ _ _).trans (by rw [abs_zero]; rfl)
    rw [hcomp]
    refine le_trans (le_of_eq ?_) hbalanced.abs_le
    exact (sum_rowColumnsAt fun j => |y j|).symm
  have hrounding := sum_rounding_le h habs
  have hproducts : ((List.range n).map p).sum ≤ ((List.range n).map (activityAt a y)).sum +
      ((List.range n).map fun j => Column.rounding (activityAt a y j)).sum := by
    rw [← List.sum_map_add]
    refine List.sum_le_sum fun j hj => ?_
    linarith [(abs_le.mp (hp j hj).2).2]
  have hmagnitudes : ((List.range n).map fun j => |p j|).sum ≤
      ((List.range n).map fun j => |activityAt a y j|).sum +
        ((List.range n).map fun j => Column.rounding (activityAt a y j)).sum := by
    rw [← List.sum_map_add]
    refine List.sum_le_sum fun j hj => ?_
    linarith [abs_sub_abs_le_abs_sub (p j) (activityAt a y j), (hp j hj).2]
  exact ⟨p, fun j hj => (hp j hj).1, by linarith, by linarith [h.slop_le_size, h.one_le]⟩

/-- The activity that the validator computes is that of the levels, up to some errors. -/
theorem exists_activity {x₀ : Array Float}
    (hrests : Rests (rowColumnsAt n d a l u) x₀ (tabulate n x) y)
    (hbalanced : Balanced n b size (rowColumnsAt n d a l u) y) :
    ∃ q, value (Scalar.dot (tabulate n a) (tabulate n x)) = .ofRat q ∧ |q| ≤ 13 * size ∧
      q ≤ b + leeway * (1 + |b|) + 85 * slop n size := by
  obtain ⟨p, hp, htotal, hmagnitudes⟩ := exists_products_le h hrests hbalanced
  have hlength : (List.range n).length ≤ n := List.length_range.le
  obtain ⟨q, hq, herror⟩ := exists_sum hp hmagnitudes
    ((h.count_mul_le hlength).trans (by norm_num)) (by linarith [h.le_ceiling, h.one_le])
  have hcount := h.count_mul_size_le hlength
  have hsize := h.slop_le_size
  have hone := h.one_le
  obtain ⟨hlo, hhi⟩ := abs_le.mp herror
  obtain ⟨hlo', hhi'⟩ := abs_le.mp ((abs_sum_map_le _ p).trans hmagnitudes)
  rw [← toList_tabulate, Array.toArray_toList] at hq
  refine ⟨q, ?_, abs_le.mpr ⟨by linarith, by linarith⟩, by linarith⟩
  unfold Scalar.dot
  rwa [zipWith_tabulate]

/-- The validator finds the activity within the tolerance. -/
theorem violation_le {rhs : Float} (hrhs : value rhs = .ofRat b) {x₀ : Array Float}
    (hrests : Rests (rowColumnsAt n d a l u) x₀ (tabulate n x) y)
    (hbalanced : Balanced n b size (rowColumnsAt n d a l u) y) :
    Row.violation ⟨tabulate n a, rhs⟩ (tabulate n x) ≤
      Program.validationTolerance * (1.0 + Scalar.abs rhs) := by
  obtain ⟨q, hq, hle, htotal⟩ := exists_activity h hrests hbalanced
  have hceiling := h.le_ceiling
  have hmost := h.one_add_abs_le
  have hb := abs_nonneg b
  have hleft : |q - b| ≤ 14 * size := (abs_sub q b).trans (by linarith)
  obtain ⟨v, hv, -, herror⟩ := exists_sub hq hrhs (by linarith)
  have hshare := mul_le_mul_of_nonneg_left hleft roundoff_pos.le
  have hvle : v ≤ leeway * (1 + |b|) + 99 * slop n size := by
    linarith [(abs_le.mp herror).2, h.roundoff_mul_le]
  obtain ⟨t, ht, hterror⟩ := exists_tolerance value_validationTolerance (by norm_num [abs_le]) hrhs
    (by linarith)
  refine (le_iff _ _).mpr ?_
  rw [show value (Row.violation ⟨tabulate n a, rhs⟩ (tabulate n x)) = .ofRat v from hv, ht,
    Exact.ofRat_le]
  have hslop := h.slop_le
  have htlower := (abs_le.mp hterror).1
  unfold leeway at hvle
  unfold roundoff at htlower
  linarith

end

/-! ## Points of a solved box -/

/-- The columns off the row. -/
def freeColumnsAt (n : ℕ) (d a l u : Nat → Float) : List (Column Float) :=
  ((List.range n).map (columnAt d a l u)).filter fun c => c.coef == 0.0

section

variable {n : ℕ} {r : OneRow Float} {d a l u x : Nat → Float} {point : Array Float}

theorem filter_columnAt :
    (((List.range n).map (columnAt d a l u)).filter fun c => !(c.coef == 0.0)) =
      rowColumnsAt n d a l u := by
  rw [List.filter_map]
  rfl

/-- The value of a variable off the row is its resting value, and admitted. -/
theorem exists_admitted_of_free (hcolumns : ∀ j < n, (columnAt d a l u j).Moderate)
    (hfree : ∀ c ∈ freeColumnsAt n d a l u, Scalar.isFinite c.resting = true) {x₀ : Array Float}
    {j : Nat} {v : Float} (hj : j < n) (hzero : (a j == 0.0) = true)
    (hv : ((freeColumnsAt n d a l u).foldl (fun x c => x.setIfInBounds c.var c.resting) x₀)[j]? =
      some v) : ∃ ξ, value v = .ofRat ξ ∧ (columnAt d a l u j).Admits ξ := by
  rcases foldl_set_cases Column.var Column.resting hv with ⟨c, hc, hvar, rfl⟩ | ⟨hunset, -⟩
  · obtain ⟨i, -, rfl⟩ := List.mem_map.mp (List.mem_filter.mp hc).1
    obtain rfl : i = j := hvar
    obtain ⟨ξ, hξ⟩ := isFinite_iff.mp (hfree _ hc)
    have hmoderate := hcolumns i hj
    exact ⟨ξ, hξ, Column.admits_resting (valid_of_lt_inf hmoderate.lower)
      (valid_of_neg_inf_lt hmoderate.upper) hξ⟩
  · exact absurd rfl (hunset (columnAt d a l u j)
      (List.mem_filter.mpr ⟨List.mem_map_of_mem (List.mem_range.mpr hj), hzero⟩))

/-- The value of a variable of the row is that of a level, and admitted. -/
theorem exists_admitted_of_rests {y : Nat → ℚ} {x₀ : Array Float}
    (hrests : Rests (rowColumnsAt n d a l u) x₀ (tabulate n x) y) {j : Nat} (hj : j < n)
    (hne : (a j == 0.0) = false) : ∃ ξ, value (x j) = .ofRat ξ ∧ (columnAt d a l u j).Admits ξ := by
  obtain ⟨ξ, hξ⟩ := isFinite_iff.mp
    (hrests.finite (x j) (mem_tabulate.mpr ⟨j, hj, rfl⟩))
  obtain ⟨level, hvalue, hsettles⟩ := hrests.on _ (mem_rowColumnsAt.mpr ⟨j, hj, hne, rfl⟩) (x j)
    (getElem?_tabulate_of_lt x hj)
  exact ⟨ξ, hξ, (hsettles.written ξ (hvalue ▸ hξ)).1⟩

/-- Once the row of a moderate box is solved, the values of all columns are admitted, and the
activity is within the tolerance of the validator. -/
theorem exists_admitted_of_row {row : Row Float} {x₀ : Array Float}
    (hcoefs : ∀ j < n, Scalar.isFinite (a j) = true) (hrhs : Scalar.isFinite row.rhs = true)
    (hrow : row.coefs = tabulate n a) (hcolumns : ∀ j < n, (columnAt d a l u j).Moderate)
    (hfine : (n + 1) * scale row.rhs ((List.range n).map (columnAt d a l u)) ≤
      2 ^ 25 * (1 + magnitude row.rhs))
    (hrange : scale row.rhs ((List.range n).map (columnAt d a l u)) ≤ 2 ^ 1000)
    (hfree : ∀ j < n, (a j == 0.0) = true → ∀ v, x₀[j]? = some v →
      ∃ ξ, value v = .ofRat ξ ∧ (columnAt d a l u j).Admits ξ) (hsize : x₀.size = n)
    (hsolved : solveRow row.rhs (rowColumnsAt n d a l u) x₀ = .solved point) :
    ∃ x : Nat → Float, point = tabulate n x ∧
      (∀ j < n, ∃ ξ, value (x j) = .ofRat ξ ∧ (columnAt d a l u j).Admits ξ) ∧
      row.violation point ≤ Program.validationTolerance * (1.0 + Scalar.abs row.rhs) := by
  obtain ⟨b, hb⟩ := isFinite_iff.mp hrhs
  have hcoef : ∀ j, ∃ q, j < n → value (a j) = .ofRat q := by
    intro j
    by_cases hj : j < n
    · obtain ⟨q, hq⟩ := isFinite_iff.mp (hcoefs j hj)
      exact ⟨q, fun _ => hq⟩
    · exact ⟨0, fun hlt => absurd hlt hj⟩
  choose coef hcoef using hcoef
  have hscaled := scaled_of_moderate hcoef hb hcolumns hfine hrange
  obtain ⟨y, hrests, hbalanced⟩ := hscaled.exists_rests hb hsolved
  obtain ⟨x, hx⟩ := exists_eq_tabulate (hrests.size.trans hsize) 0.0
  rw [hx] at hrests
  refine ⟨x, hx, fun j hj => ?_, ?_⟩
  · by_cases hzero : (a j == 0.0) = true
    · refine hfree j hj hzero (x j) (hrests.off j (x j) (getElem?_tabulate_of_lt x hj) ?_)
      rintro c hc rfl
      obtain ⟨i, -, hne, rfl⟩ := mem_rowColumnsAt.mp hc
      exact Bool.eq_false_iff.mp hne hzero
    · exact exists_admitted_of_rests hrests hj (Bool.eq_false_iff.mpr hzero)
  · have hviolation := violation_le hscaled hb hrests hbalanced
    rwa [← hrow, ← hx] at hviolation

/-- The point of a moderate box has values that the columns admit, and an activity within the
tolerance of the validator. -/
theorem exists_admitted (hr : r.Sized n) (hfinite : ∀ row, r.row? = some row →
      (∀ v ∈ row.coefs, Scalar.isFinite v = true) ∧ Scalar.isFinite row.rhs = true)
    (hmoderate : r.Moderate (tabulate n l) (tabulate n u))
    (hsolved : r.solveBox (tabulate n l) (tabulate n u) = .solved point) :
    ∃ d a x : Nat → Float, point = tabulate n x ∧
      (∀ j < n, (columnAt d a l u j).Moderate ∧
        ∃ ξ, value (x j) = .ofRat ξ ∧ (columnAt d a l u j).Admits ξ) ∧
      ∀ row, r.row? = some row →
        row.violation point ≤ Program.validationTolerance * (1.0 + Scalar.abs row.rhs) := by
  obtain ⟨d, a, hcolumns, -, hcoefs, hnone⟩ := exists_columnsOver hr l u
  replace hcolumns : r.columnsOver (tabulate n l) (tabulate n u) =
    (List.range n).map (columnAt d a l u) := hcolumns
  obtain ⟨hmoderates, hfine, hrange⟩ := hmoderate
  rw [hcolumns] at hmoderates hfine hrange
  replace hmoderates : ∀ j < n, (columnAt d a l u j).Moderate := fun j hj =>
    hmoderates _ (List.mem_map_of_mem (List.mem_range.mpr hj))
  unfold solveBox at hsolved
  dsimp only at hsolved
  rw [hcolumns, hr.costs] at hsolved
  split at hsolved
  · cases hsolved
  rename_i hrests
  have hfree : ∀ c ∈ freeColumnsAt n d a l u, Scalar.isFinite c.resting = true := by
    intro c hc
    by_contra hnot
    exact hrests (List.any_eq_true.mpr ⟨c, hc, by simpa using hnot⟩)
  have hsize : ((freeColumnsAt n d a l u).foldl (fun x c => x.setIfInBounds c.var c.resting)
      (Array.replicate n 0.0)).size = n :=
    List.foldlRecOn (motive := fun x : Array Float => x.size = n) _ _ Array.size_replicate
      fun x hx c _ => Array.size_setIfInBounds.trans hx
  cases hrow : r.row? with
  | none =>
    rw [hrow] at hsolved
    obtain ⟨x, hx⟩ := exists_eq_tabulate hsize 0.0
    refine ⟨d, a, x, (Placement.solved.inj hsolved).symm.trans hx, fun j hj =>
      ⟨hmoderates j hj, ?_⟩, fun row hsome => absurd hsome (by simp)⟩
    refine exists_admitted_of_free hmoderates hfree hj ?_
      (hx ▸ getElem?_tabulate_of_lt x hj)
    rw [hnone hrow j]
    rfl
  | some row =>
    rw [hrow] at hsolved
    obtain ⟨hfiniteCoefs, hfiniteRhs⟩ := hfinite row hrow
    rw [hcoefs row hrow] at hfiniteCoefs
    have hfine := hfine row hrow
    rw [hr.costs] at hfine
    dsimp only at hsolved
    rw [filter_columnAt] at hsolved
    obtain ⟨x, hx, hadmits, hviolation⟩ := exists_admitted_of_row
      (fun j hj => hfiniteCoefs (a j) (mem_tabulate.mpr ⟨j, hj, rfl⟩)) hfiniteRhs (hcoefs row hrow)
      hmoderates hfine (hrange row hrow)
      (fun j hj hzero v hv => exists_admitted_of_free hmoderates hfree hj hzero hv) hsize hsolved
    refine ⟨d, a, x, hx, fun j hj => ⟨hmoderates j hj, hadmits j hj⟩, fun row' hsome => ?_⟩
    obtain rfl := Option.some.inj hsome
    exact hviolation

end

/-! ## The validator accepts -/

/-- Values that the columns of a node's box admit are within the bounds of the program, up to the
tolerance of the validator. -/
theorem withinBounds_of_admits {p : Program Float} {n : ℕ} {l₀ u₀ l u x d a : Nat → Float}
    (hlower : p.lower = tabulate n l₀) (hupper : p.upper = tabulate n u₀)
    (hnarrow : ∀ j, value (l₀ j) ≤ value (l j) ∧ value (u j) ≤ value (u₀ j))
    (huncrossed : ∀ j < n, ¬u j + boundTolerance < l j)
    (hadmits : ∀ j < n, (columnAt d a l u j).Moderate ∧
      ∃ ξ, value (x j) = .ofRat ξ ∧ (columnAt d a l u j).Admits ξ) :
    p.withinBounds (tabulate n x) Program.validationTolerance = true := by
  unfold Program.withinBounds
  rw [hlower, hupper, zip_tabulate, zip_tabulate, all_tabulate]
  intro j hj
  obtain ⟨hmoderate, ξ, hξ, hadmits⟩ := hadmits j hj
  obtain ⟨hleft, hright⟩ := hadmits.within (huncrossed j hj) (valid_of_lt_inf hmoderate.lower).1
    (valid_of_neg_inf_lt hmoderate.upper).1 hξ (hnarrow j).1 (hnarrow j).2
  exact Bool.and_eq_true_iff.mpr ⟨decide_eq_true hleft, decide_eq_true hright⟩

/-- With at most one row, it is the first one that the validator looks at. -/
theorem accepts_of_row {p : Program Float} (hrows : p.rows.size ≤ 1) {x : Array Float}
    (hsize : x.size = p.size) (hfinite : x.all Scalar.isFinite = true)
    (hwithin : p.withinBounds x Program.validationTolerance = true)
    (hrow : ∀ row, p.rows[0]? = some row →
      row.violation x ≤ Program.validationTolerance * (1.0 + Scalar.abs row.rhs)) :
    p.accepts x = true := by
  unfold Program.accepts
  rw [hfinite, hwithin, hsize, beq_self_eq_true, Bool.true_and, Bool.true_and, Bool.true_and,
    Array.all_eq_true']
  intro row hmem
  obtain ⟨i, hi⟩ := Array.mem_iff_getElem?.mp hmem
  have hlt := (Array.getElem?_eq_some_iff.mp hi).1
  obtain rfl : i = 0 := by omega
  exact decide_eq_true (hrow row hi)

/-- A search can use what its program accepts, whether it validates or not. -/
theorem isUsable_of_accepts {p : Program Float} {search : Search Float}
    (hsearch : search.problem = p.problem) {x : Array Float} (h : p.accepts x = true) :
    Visit.isUsable search x = true := by
  have haccepts : search.problem.accepts x = true := by
    rw [hsearch]
    exact h
  unfold Program.accepts at h
  simp only [Bool.and_eq_true, and_assoc] at h
  obtain ⟨hsize, hfinite, -⟩ := h
  unfold Visit.isUsable
  rw [haccepts, hfinite, hsearch, show p.problem.size = p.size from rfl, hsize, Bool.or_true]
  rfl

/-- The relaxation and the validator agree: for every built program with at most one row, every node
over its variables and every cutoff, there is an answer. If the box is moderate and the answer is
optimal, the validator accepts its point, so no search of the program finds it unusable. -/
theorem optimal_is_accepted {sense : Sense} {costs : Array Float}
    {steps : List (Program.Step Float)} {p : Program Float}
    (hbuild : Program.build sense costs steps = .ok p) {r : OneRow Float}
    (hr : ofProgram p = .ok r) {node : Node Float} (hvars : ∀ var ∈ node.vars, var < p.size)
    (cutoff : Option (Cutoff Float)) : ∃ lower upper answer,
      node.tighten p.lower p.upper = .ok (lower, upper) ∧ r.answer node cutoff = .ok answer ∧
      (r.Moderate lower upper → answer.verdict = .optimal → p.accepts answer.point = true ∧
        ∀ search : Search Float, search.problem = p.problem →
          Visit.isUsable search answer.point = true) := by
  have hp := (Program.of_build hbuild).wellFormed
  have hvalid := Program.validBounds_of_build hbuild
  obtain ⟨hrows, hprogram, -⟩ := ofProgram_eq_ok hr
  have hzero : value 0.0 ≠ .nan := by
    rw [value_zero]
    exact (nomatch ·)
  obtain ⟨l₀, hlower, hl₀⟩ :=
    exists_eq_tabulate_of (P := fun v => value v ≠ .nan) hp.size_lower hzero hvalid.lower
  obtain ⟨u₀, hupper, hu₀⟩ :=
    exists_eq_tabulate_of (P := fun v => value v ≠ .nan) hp.size_upper hzero hvalid.upper
  obtain ⟨l, u, htighten, hnarrow⟩ := exists_tighten_narrower hvars hl₀ hu₀
  rw [← hlower, ← hupper] at htighten
  have htightened : node.tighten r.program.lower r.program.upper =
      .ok (tabulate p.size l, tabulate p.size u) := by rw [hprogram, htighten]
  obtain ⟨answer, hanswer⟩ := exists_answer_of_tighten htightened cutoff
  refine ⟨_, _, answer, htighten, hanswer, fun hmoderate hoptimal => ?_⟩
  obtain ⟨hsolved, huncrossed⟩ := solved_of_answer htightened hanswer (by rw [hoptimal]; rfl)
  rw [zip_tabulate, any_tabulate] at huncrossed
  have hrow : ∀ row, r.row? = some row → row ∈ p.rows := fun row hsome => by
    unfold row? at hsome
    rw [hprogram] at hsome
    exact Array.mem_of_getElem? hsome
  obtain ⟨d, a, x, hx, hadmits, hviolation⟩ := exists_admitted (sized_of_ofProgram hp hr)
    (fun row hsome => hp.finite_row row (hrow row hsome)) hmoderate hsolved
  have hwithin := withinBounds_of_admits hlower hupper hnarrow
    (fun j hj hcrossed => huncrossed ⟨j, hj, decide_eq_true hcrossed⟩) hadmits
  rw [← hx] at hwithin
  have hsize : answer.point.size = p.size := by rw [hx, size_tabulate]
  have hfinite : answer.point.all Scalar.isFinite = true := by
    rw [hx, all_tabulate]
    intro j hj
    obtain ⟨-, ξ, hξ, -⟩ := hadmits j hj
    exact isFinite_iff.mpr ⟨ξ, hξ⟩
  have haccepts := accepts_of_row hrows hsize hfinite hwithin fun row hsome =>
    hviolation row (by rw [row?, hprogram, hsome])
  exact ⟨haccepts, fun search hsearch => isUsable_of_accepts hsearch haccepts⟩

/-! ## The greatest `y` for `x + y / 2 ≤ 1`, with `x` from zero to one and `y` from zero on -/

namespace HalfOpen

def program : Program Float where
  sense := .maximise
  costs := #[0.0, 1.0]
  constant := 0.0
  lower := #[0.0, 0.0]
  upper := #[1.0, Scalar.inf]
  integers := #[]
  binaries := #[]
  rows := #[⟨#[1.0, 0.5], 1.0⟩]

def relaxed : OneRow Float := ⟨program, #[-0.0, -1.0]⟩

theorem build_program : Program.build .maximise #[0.0, 1.0]
    [.bounds 0 0.0 1.0, .bounds 1 0.0 Scalar.inf, .row #[1.0, 0.5] 1.0] = .ok program := by
  with_unfolding_all rfl

theorem ofProgram_program : ofProgram program = .ok relaxed := by with_unfolding_all rfl

def node : Node Float := Node.root #[] 0.0

theorem tighten_node : node.tighten program.lower program.upper =
    .ok (program.lower, program.upper) := by
  with_unfolding_all rfl

theorem moderate_relaxed : relaxed.Moderate program.lower program.upper := by
  have hcolumns : relaxed.columnsOver program.lower program.upper =
      [⟨0, -0.0, 1.0, 0.0, 1.0⟩, ⟨1, -1.0, 0.5, 0.0, Scalar.inf⟩] := by
    with_unfolding_all rfl
  have hhalf : magnitude 0.5 = 1 / 2 := by
    rw [magnitude_of_value value_half]
    norm_num
  have hscale : scale 1.0 (relaxed.columnsOver program.lower program.upper) = 3 := by
    rw [hcolumns]
    unfold scale Column.weight
    simp only [List.map_cons, List.map_nil, List.sum_cons, List.sum_nil, magnitude_zero, hhalf,
      magnitude_one, magnitude_inf]
    norm_num
  have hrow : relaxed.row? = some ⟨#[1.0, 0.5], 1.0⟩ := rfl
  refine moderate_of_row hrow ?_ ?_ ?_
  · rw [hcolumns]
    refine List.forall_mem_cons.mpr ⟨⟨by decide +kernel, by decide +kernel, fun _ => rfl,
      fun _ => ?_⟩, List.forall_mem_singleton.mpr
        ⟨by decide +kernel, by decide +kernel, fun _ => rfl, fun _ => ?_⟩⟩
    · rw [magnitude_zero, magnitude_one]
      norm_num [span]
    · rw [magnitude_zero, magnitude_inf]
      norm_num [span]
  · rw [hscale, magnitude_one, show relaxed.costs.size = 2 from rfl]
    norm_num
  · rw [hscale]
    exact le_trans (by norm_num) (pow_le_pow_right₀ one_le_two (by norm_num : 2 ≤ 1000))

/-- The second variable takes up the whole row, and the validator accepts that. -/
theorem accepted_of_halfOpen : ∃ lower upper answer,
    Program.build .maximise #[0.0, 1.0]
      [.bounds 0 0.0 1.0, .bounds 1 0.0 Scalar.inf, .row #[1.0, 0.5] 1.0] = .ok program ∧
    ofProgram program = .ok relaxed ∧
    node.tighten program.lower program.upper = .ok (lower, upper) ∧
    relaxed.answer node none = .ok answer ∧ relaxed.Moderate lower upper ∧
    answer.verdict = .optimal ∧ program.accepts answer.point = true := by
  have hrun : (relaxed.answer node none).toOption.map Answer.verdict = some .optimal := by
    decide +kernel
  obtain ⟨found, hfound, hoptimal⟩ := exists_of_toOption_map hrun
  have hvars : ∀ var ∈ node.vars, var < program.size := fun var hvar =>
    absurd hvar (Array.not_mem_empty var)
  obtain ⟨lower, upper, answer, htighten, hanswer, haccepted⟩ :=
    optimal_is_accepted build_program ofProgram_program hvars none
  obtain ⟨rfl, rfl⟩ := Prod.mk.inj (Except.ok.inj (tighten_node.symm.trans htighten))
  obtain rfl := Except.ok.inj (hfound.symm.trans hanswer)
  exact ⟨_, _, found, build_program, ofProgram_program, htighten, hfound, moderate_relaxed,
    hoptimal, (haccepted moderate_relaxed hoptimal).1⟩

end HalfOpen

/-! ## Rows of numbers that are not moderate -/

/-- A rejected answer at the root is read off its evaluation. -/
theorem exists_rejected (r : OneRow Float) (p : Program Float)
    (hrun : (r.answer (Node.root #[] 0.0) none).toOption.map
      (fun answer => (answer.verdict, p.accepts answer.point)) = some (.optimal, false)) :
    ∃ answer, r.answer (Node.root #[] 0.0) none = .ok answer ∧ answer.verdict = .optimal ∧
      p.accepts answer.point = false := by
  obtain ⟨answer, hanswer, hfound⟩ := exists_of_toOption_map hrun
  obtain ⟨hoptimal, hrejected⟩ := Prod.mk.inj hfound
  exact ⟨answer, hanswer, hoptimal, hrejected⟩

namespace Swamped

/-- A free variable and two that are one, which weigh `10 ^ 17` and four in the row. -/
def program : Program Float where
  sense := .minimise
  costs := #[0.0, 0.0, 0.0]
  constant := 0.0
  lower := #[-Scalar.inf, 1.0, 1.0]
  upper := #[Scalar.inf, 1.0, 1.0]
  integers := #[]
  binaries := #[]
  rows := #[⟨#[1.0, 1e17, 4.0], 0.0⟩]

def relaxed : OneRow Float := ⟨program, #[0.0, 0.0, 0.0]⟩

/-- The free variable takes up `10 ^ 17 + 4` as it is rounded, and the validator, which adds in
another order, is left with the four. -/
theorem rejected_of_swamped : ∃ answer,
    Program.build .minimise #[0.0, 0.0, 0.0]
      [.bounds 1 1.0 1.0, .bounds 2 1.0 1.0, .row #[1.0, 1e17, 4.0] 0.0] = .ok program ∧
    ofProgram program = .ok relaxed ∧ relaxed.answer (Node.root #[] 0.0) none = .ok answer ∧
    answer.verdict = .optimal ∧ program.accepts answer.point = false := by
  obtain ⟨answer, hrejected⟩ := exists_rejected relaxed program (by decide +kernel)
  exact ⟨answer, by with_unfolding_all rfl, by with_unfolding_all rfl, hrejected⟩

end Swamped

namespace Unpriced

/-- Two variables of at most one, the first of which has an invalid cost. -/
def program : Program Float where
  sense := .minimise
  costs := #[Scalar.nan, -1.0]
  constant := 0.0
  lower := #[-Scalar.inf, -Scalar.inf]
  upper := #[1.0, 1.0]
  integers := #[]
  binaries := #[]
  rows := #[⟨#[1.0, 1.0], 0.0⟩]

def relaxed : OneRow Float := ⟨program, #[Scalar.nan, -1.0]⟩

/-- With any valid cost in place of the invalid one the numbers are moderate. -/
theorem moderate_of_valid {cost : Float} (hcost : Scalar.isNaN cost = false) :
    Moderate ⟨program, #[cost, -1.0]⟩ program.lower program.upper := by
  have hcolumns : columnsOver ⟨program, #[cost, -1.0]⟩ program.lower program.upper =
      [⟨0, cost, 1.0, -Scalar.inf, 1.0⟩, ⟨1, -1.0, 1.0, -Scalar.inf, 1.0⟩] := by
    with_unfolding_all rfl
  have hscale : scale 0.0
      (columnsOver ⟨program, #[cost, -1.0]⟩ program.lower program.upper) = 3 := by
    rw [hcolumns]
    unfold scale Column.weight
    simp only [List.map_cons, List.map_nil, List.sum_cons, List.sum_nil, magnitude_zero,
      magnitude_one, magnitude_neg, magnitude_inf]
    norm_num
  have hbounds : magnitude (-Scalar.inf) ≤ span ∧ magnitude 1.0 ≤ span := by
    rw [magnitude_neg, magnitude_inf, magnitude_one]
    norm_num [span]
  have hrow : row? ⟨program, #[cost, -1.0]⟩ = some ⟨#[1.0, 1.0], 0.0⟩ := rfl
  refine moderate_of_row hrow ?_ ?_ ?_
  · rw [hcolumns]
    have hlower : (-Scalar.inf : Float) < Scalar.inf := by decide +kernel
    have hupper : (-Scalar.inf : Float) < 1.0 := by decide +kernel
    exact List.forall_mem_cons.mpr ⟨⟨hlower, hupper, fun _ => hcost, fun _ => hbounds⟩,
      List.forall_mem_singleton.mpr ⟨hlower, hupper, fun _ => rfl, fun _ => hbounds⟩⟩
  · rw [hscale, magnitude_zero]
    norm_num
  · rw [hscale]
    exact le_trans (by norm_num) (pow_le_pow_right₀ one_le_two (by norm_num : 2 ≤ 1000))

/-- Both variables are raised to one, although the row allows for zero together. So the condition on
the cost cannot be dropped. -/
theorem rejected_of_unpriced : ∃ answer,
    Program.build .minimise #[Scalar.nan, -1.0] [.bounds 0 (-Scalar.inf) 1.0,
      .bounds 1 (-Scalar.inf) 1.0, .row #[1.0, 1.0] 0.0] = .ok program ∧
    ofProgram program = .ok relaxed ∧ relaxed.answer (Node.root #[] 0.0) none = .ok answer ∧
    answer.verdict = .optimal ∧ program.accepts answer.point = false := by
  obtain ⟨answer, hrejected⟩ := exists_rejected relaxed program (by decide +kernel)
  exact ⟨answer, by with_unfolding_all rfl, by with_unfolding_all rfl, hrejected⟩

end Unpriced

namespace Overflowing

/-- `2 ^ 1023`, the greatest power of two among the doubles. -/
def huge : Float := Float.ofBits 0x7FE0000000000000

/-- A free variable and two that are one and cancel each other out in the row. -/
def program : Program Float where
  sense := .minimise
  costs := #[0.0, 0.0, 0.0]
  constant := 0.0
  lower := #[-Scalar.inf, 1.0, 1.0]
  upper := #[Scalar.inf, 1.0, 1.0]
  integers := #[]
  binaries := #[]
  rows := #[⟨#[1.0, huge, -huge], huge⟩]

def relaxed : OneRow Float := ⟨program, #[0.0, 0.0, 0.0]⟩

theorem columnsOver_relaxed : relaxed.columnsOver program.lower program.upper =
    [⟨0, 0.0, 1.0, -Scalar.inf, Scalar.inf⟩, ⟨1, 0.0, huge, 1.0, 1.0⟩,
      ⟨2, 0.0, -huge, 1.0, 1.0⟩] := by
  with_unfolding_all rfl

/-- All but the range is moderate. -/
theorem moderate_but_for_range :
    (∀ c ∈ relaxed.columnsOver program.lower program.upper, c.Moderate) ∧
    (relaxed.costs.size + 1) * scale huge (relaxed.columnsOver program.lower program.upper) ≤
      2 ^ 25 * (1 + magnitude huge) := by
  have hscale : scale huge (relaxed.columnsOver program.lower program.upper) =
      1 + 3 * magnitude huge := by
    rw [columnsOver_relaxed]
    unfold scale Column.weight
    simp only [List.map_cons, List.map_nil, List.sum_cons, List.sum_nil, magnitude_one,
      magnitude_neg, magnitude_inf, max_self]
    ring
  have hfree : (⟨0, 0.0, 1.0, -Scalar.inf, Scalar.inf⟩ : Column Float).Moderate := by
    refine ⟨by decide +kernel, by decide +kernel, fun _ => rfl, fun _ => ?_⟩
    rw [magnitude_neg, magnitude_inf]
    norm_num [span]
  have hfixed : ∀ var coef, (⟨var, 0.0, coef, 1.0, 1.0⟩ : Column Float).Moderate := by
    refine fun var coef => ⟨show (1.0 : Float) < Scalar.inf by decide +kernel,
      show -Scalar.inf < (1.0 : Float) by decide +kernel,
      fun _ => show Scalar.isNaN (0.0 : Float) = false from rfl, fun _ => ?_⟩
    rw [magnitude_one]
    norm_num [span]
  refine ⟨?_, ?_⟩
  · rw [columnsOver_relaxed]
    exact List.forall_mem_cons.mpr ⟨hfree, List.forall_mem_cons.mpr
      ⟨hfixed 1 huge, List.forall_mem_singleton.mpr (hfixed 2 (-huge))⟩⟩
  · rw [hscale, show relaxed.costs.size = 3 from rfl]
    push_cast
    linarith [magnitude_nonneg huge]

/-- The free variable takes up the right-hand side, and its sum with the activity of the second one
overflows. So the condition on the range cannot be dropped. -/
theorem rejected_of_overflowing : ∃ answer,
    Program.build .minimise #[0.0, 0.0, 0.0]
      [.bounds 1 1.0 1.0, .bounds 2 1.0 1.0, .row #[1.0, huge, -huge] huge] = .ok program ∧
    ofProgram program = .ok relaxed ∧ relaxed.answer (Node.root #[] 0.0) none = .ok answer ∧
    answer.verdict = .optimal ∧ program.accepts answer.point = false := by
  obtain ⟨answer, hrejected⟩ := exists_rejected relaxed program (by decide +kernel)
  exact ⟨answer, by with_unfolding_all rfl, by with_unfolding_all rfl, hrejected⟩

end Overflowing

end OneRow

end BranchBound
