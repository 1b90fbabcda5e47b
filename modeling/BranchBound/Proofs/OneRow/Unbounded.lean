import BranchBound.Proofs.OneRow.Pricing
import Mathlib.Algebra.BigOperators.Pi

/-!
# Boxes without end

What `solveBox` makes of a box that has a point within the row, whether or not its bounds are
finite. It is unbounded, and then there is a direction in which the box has no end, the row does not
rise and the costs fall (`Recedes`), so that there are points of any cost (`Recedes.exists_lt`). Or
it comes to a point of the box (`solveBox_of_inBounds`).
-/

namespace BranchBound.OneRow

open Exact Finset

/-! ## Writing values in a range -/

section

variable {α : Type} [Scalar α]

theorem write_append_singleton (x : Array α) (levels : List (Column α × Level α))
    (cl : Column α × Level α) :
    write x (levels ++ [cl]) = (write x levels).setIfInBounds cl.1.var (cl.1.value cl.2) :=
  List.foldl_append

theorem size_write (x : Array α) (levels : List (Column α × Level α)) :
    (write x levels).size = x.size := by
  induction levels using List.reverseRecOn with
  | nil => rfl
  | append_singleton rest cl ih => rw [write_append_singleton, Array.size_setIfInBounds, ih]

omit [Scalar α] in
/-- What is set last at an index comes of an item with that index; the others stay. -/
theorem foldl_set_cases {β : Type} {items : List β} (index : β → Nat) (value : β → α)
    {x : Array α} {j : Nat} {v : α}
    (h : (items.foldl (fun x i => x.setIfInBounds (index i) (value i)) x)[j]? = some v) :
    (∃ i ∈ items, index i = j ∧ value i = v) ∨ (∀ i ∈ items, index i ≠ j) ∧ x[j]? = some v := by
  induction items generalizing x with
  | nil => exact Or.inr ⟨fun _ hi => absurd hi List.not_mem_nil, h⟩
  | cons first rest ih =>
    rw [List.foldl_cons] at h
    rcases ih h with ⟨i, hi, hv⟩ | ⟨hnone, hv⟩
    · exact Or.inl ⟨i, List.mem_cons_of_mem first hi, hv⟩
    · by_cases hfirst : index first = j
      · have hj : j < x.size := by
          have hlt := (Array.getElem?_eq_some_iff.mp hv).1
          rwa [Array.size_setIfInBounds] at hlt
        rw [hfirst, Array.getElem?_setIfInBounds_self_of_lt hj] at hv
        exact Or.inl ⟨first, List.mem_cons_self, hfirst, Option.some.inj hv⟩
      · rw [Array.getElem?_setIfInBounds_ne hfirst] at hv
        exact Or.inr ⟨List.forall_mem_cons.mpr ⟨hfirst, hnone⟩, hv⟩

/-- A value that is written comes of a level of the variable; the others stay. -/
theorem write_cases {x : Array α} {levels : List (Column α × Level α)} {j : Nat} {v : α}
    (h : (write x levels)[j]? = some v) : (∃ cl ∈ levels, cl.1.var = j ∧ cl.1.value cl.2 = v) ∨
      (∀ cl ∈ levels, cl.1.var ≠ j) ∧ x[j]? = some v :=
  foldl_set_cases (fun cl : Column α × Level α => cl.1.var) (fun cl => cl.1.value cl.2) h

end

section

variable {n : Nat} {d a f z : Nat → ℚ} {b : ℚ} {l u : Nat → Exact} {j : Nat}

/-- The value of a variable at a level in its range is within its bounds. -/
theorem value_of_sits (hne : a j ≠ 0) {level : Level Exact} (h : (column d a l u j).Sits level) :
    ∃ q : ℚ, (column d a l u j).value level = .ofRat q ∧ l j ≤ .ofRat q ∧ .ofRat q ≤ u j := by
  obtain ⟨y, hy, hwithin⟩ := h
  rw [← mul_div_cancel₀ y hne, within_column_iff hne] at hwithin
  exact ⟨y / a j, Column.value_of_activity rfl hne hy, hwithin⟩

/-- Levels in their ranges, of all variables of the row, are written as values within the bounds. -/
theorem ofPoint_write {levels : List (Column Exact × Level Exact)}
    (hsits : ∀ cl ∈ levels, cl.1 ∈ rowColumns n d a l u ∧ cl.1.Sits cl.2)
    (hall : ∀ c ∈ rowColumns n d a l u, ∃ cl ∈ levels, cl.1.var = c.var) :
    ∃ x : Nat → ℚ, Placement.ofPoint (write (vector n f) levels) = .solved (vector n x) ∧
      ∀ j < n, (a j ≠ 0 → l j ≤ .ofRat (x j) ∧ .ofRat (x j) ≤ u j) ∧ (a j = 0 → x j = f j) := by
  have hsize : (write (vector n f) levels).size = n := by
    rw [size_write, vector, size_tabulate]
  have hentry : ∀ j < n, ∃ q : ℚ, (write (vector n f) levels)[j]? = some (.ofRat q) ∧
      (a j ≠ 0 → l j ≤ .ofRat q ∧ .ofRat q ≤ u j) ∧ (a j = 0 → q = f j) := by
    intro j hj
    have hwritten := Array.getElem?_eq_getElem (hsize.symm ▸ hj)
    rcases write_cases hwritten with ⟨cl, hcl, hvar, hvalue⟩ | ⟨hnone, hold⟩
    · obtain ⟨hmem, hlevel⟩ := hsits cl hcl
      obtain ⟨i, -, hne, hcolumn⟩ := mem_rowColumns.mp hmem
      rw [← hcolumn] at hvar hlevel hvalue
      obtain rfl : i = j := hvar
      obtain ⟨q, hq, hin⟩ := value_of_sits hne hlevel
      exact ⟨q, by rw [hwritten, ← hvalue, hq], fun _ => hin, fun hzero => absurd hzero hne⟩
    · have hkept := (getElem?_tabulate_of_lt (fun j => ofRat (f j)) hj).symm.trans hold
      refine ⟨f j, by rw [hwritten, hkept], fun hne => ?_, fun _ => rfl⟩
      obtain ⟨cl, hcl, hvar⟩ := hall _ (mem_rowColumns.mpr ⟨j, hj, hne, rfl⟩)
      exact absurd hvar (hnone cl hcl)
  choose! x hx using hentry
  refine ⟨x, ?_, fun j hj => (hx j hj).2⟩
  rw [show write (vector n f) levels = vector n x from eq_tabulate hsize fun j hj => (hx j hj).1]
  exact ofPoint_vector

/-! ## Directions -/

/-- Whether a variable can be moved by multiples of a number without end. -/
structure Opens (l u : Nat → Exact) (j : Nat) (q : ℚ) : Prop where
  lower : q < 0 → l j = .negInf
  upper : 0 < q → u j = .posInf

/-- A direction in which a box has no end, the row does not rise and the costs fall. -/
structure Recedes (n : Nat) (d a : Nat → ℚ) (l u : Nat → Exact) (g : Nat → ℚ) : Prop where
  opens : ∀ j < n, Opens l u j (g j)
  row : ∑ j ∈ range n, a j * g j ≤ 0
  cost : ∑ j ∈ range n, d j * g j < 0

theorem sum_mul_single (w : Nat → ℚ) (hj : j < n) (q : ℚ) :
    ∑ i ∈ range n, w i * (Pi.single j q : Nat → ℚ) i = w j * q := by
  rw [Finset.sum_eq_single j]
  · rw [Pi.single_eq_same]
  · intro i _ hi
    rw [Pi.single_eq_of_ne hi, mul_zero]
  · exact fun hnot => absurd (Finset.mem_range.mpr hj) hnot

theorem Opens.zero (l u : Nat → Exact) (j : Nat) : Opens l u j 0 :=
  ⟨fun h => absurd h (lt_irrefl 0), fun h => absurd h (lt_irrefl 0)⟩

theorem Opens.single {i : Nat} {q : ℚ} (h : Opens l u i q) (j : Nat) :
    Opens l u j ((Pi.single i q : Nat → ℚ) j) := by
  by_cases hji : j = i
  · rw [hji, Pi.single_eq_same]
    exact h
  · rw [Pi.single_eq_of_ne hji]
    exact Opens.zero l u j

/-- Moving along open variables does not leave the box. -/
theorem inBounds_of_opens {g : Nat → ℚ} (h : ∀ j < n, Opens l u j (g j)) (hz : InBounds n l u z)
    {t : ℚ} (ht : 0 ≤ t) : InBounds n l u fun j => z j + t * g j := by
  intro j hj
  obtain ⟨hlow, hhigh⟩ := hz j hj
  constructor
  · rcases lt_or_ge (g j) 0 with hneg | hpos
    · rw [(h j hj).lower hneg]
      exact negInf_le_ofRat _
    · refine Exact.le_trans hlow ((ofRat_le _ _).mpr ?_)
      linarith [mul_nonneg ht hpos]
  · rcases lt_or_ge 0 (g j) with hpos | hneg
    · rw [(h j hj).upper hpos]
      exact ofRat_le_posInf _
    · refine Exact.le_trans ((ofRat_le _ _).mpr ?_) hhigh
      linarith [mul_nonpos_of_nonneg_of_nonpos ht hneg]

/-- Without a lowest activity it can be given up without end. -/
theorem opens_of_low (hne : a j ≠ 0) (h : (column d a l u j).low = .negInf) :
    Opens l u j (-1 / a j) := by
  unfold Column.low column at h
  rw [zero_eq] at h
  simp only [ofRat_lt] at h
  rcases lt_or_gt_of_ne hne with hneg | hpos
  · rw [if_neg (not_lt.mpr hneg.le)] at h
    refine ⟨fun hlt => absurd (div_pos_of_neg_of_neg neg_one_lt_zero hneg) (not_lt.mpr hlt.le),
      fun _ => eq_posInf_of_mul_of_neg hneg h⟩
  · rw [if_pos hpos] at h
    exact ⟨fun _ => eq_negInf_of_mul_of_pos hpos h,
      fun hlt => absurd (div_neg_of_neg_of_pos neg_one_lt_zero hpos) (not_lt.mpr hlt.le)⟩

/-- Without a highest activity it can be taken on without end. -/
theorem opens_of_high (hne : a j ≠ 0) (h : (column d a l u j).high = .posInf) :
    Opens l u j (1 / a j) := by
  unfold Column.high column at h
  rw [zero_eq] at h
  simp only [ofRat_lt] at h
  rcases lt_or_gt_of_ne hne with hneg | hpos
  · rw [if_neg (not_lt.mpr hneg.le)] at h
    exact ⟨fun _ => eq_negInf_of_mul_of_neg hneg h,
      fun hlt => absurd (one_div_neg.mpr hneg) (not_lt.mpr hlt.le)⟩
  · rw [if_pos hpos] at h
    exact ⟨fun hlt => absurd (one_div_pos.mpr hpos) (not_lt.mpr hlt.le),
      fun _ => eq_posInf_of_mul_of_pos hpos h⟩

namespace Recedes

/-- One variable whose move lowers the costs, and does not raise the row. -/
theorem single (hj : j < n) {q : ℚ} (hopens : Opens l u j q) (hrow : a j * q ≤ 0)
    (hcost : d j * q < 0) : Recedes n d a l u (Pi.single j q) where
  opens i _ := hopens.single i
  row := by rwa [sum_mul_single a hj]
  cost := by rwa [sum_mul_single d hj]

/-- Two variables that trade activity, and gain by it. -/
theorem pair {k : Nat} (hj : j < n) (hk : k < n) (hjk : j ≠ k) {q q' : ℚ}
    (hopens : Opens l u j q) (hopens' : Opens l u k q') (hrow : a j * q + a k * q' ≤ 0)
    (hcost : d j * q + d k * q' < 0) :
    Recedes n d a l u (Pi.single j q + Pi.single k q') where
  opens i _ := by
    rw [Pi.add_apply]
    by_cases hi : i = j
    · rw [hi, Pi.single_eq_of_ne hjk, add_zero, Pi.single_eq_same]
      exact hopens
    · rw [Pi.single_eq_of_ne hi, zero_add]
      exact hopens'.single i
  row := by
    simp only [Pi.add_apply, mul_add, sum_add_distrib]
    rwa [sum_mul_single a hj, sum_mul_single a hk]
  cost := by
    simp only [Pi.add_apply, mul_add, sum_add_distrib]
    rwa [sum_mul_single d hj, sum_mul_single d hk]

variable {g : Nat → ℚ}

theorem inBounds (h : Recedes n d a l u g) (hz : InBounds n l u z) {t : ℚ} (ht : 0 ≤ t) :
    InBounds n l u fun j => z j + t * g j := inBounds_of_opens h.opens hz ht

/-- Far enough in the direction the costs are as low as one likes. -/
theorem exists_lt (h : Recedes n d a l u g) (hz : InBounds n l u z)
    (hrow : ∑ j ∈ range n, a j * z j ≤ b) (m : ℚ) : ∃ y, InBounds n l u y ∧
      ∑ j ∈ range n, a j * y j ≤ b ∧ ∑ j ∈ range n, d j * y j < m := by
  have hsum : ∀ (w : Nat → ℚ) (t : ℚ), ∑ j ∈ range n, w j * (z j + t * g j) =
      ∑ j ∈ range n, w j * z j + t * ∑ j ∈ range n, w j * g j := by
    intro w t
    rw [mul_sum, ← sum_add_distrib]
    exact sum_congr rfl fun j _ => by ring
  have hcost := h.cost
  obtain ⟨t, ht, hlt⟩ : ∃ t : ℚ, 0 ≤ t ∧
      ∑ j ∈ range n, d j * z j + t * ∑ j ∈ range n, d j * g j < m := by
    refine ⟨max 0 ((m - 1 - ∑ j ∈ range n, d j * z j) / ∑ j ∈ range n, d j * g j),
      le_max_left _ _, ?_⟩
    have hle := mul_le_mul_of_nonpos_right (le_max_right 0
      ((m - 1 - ∑ j ∈ range n, d j * z j) / ∑ j ∈ range n, d j * g j)) hcost.le
    rw [div_mul_cancel₀ _ hcost.ne] at hle
    linarith
  refine ⟨_, h.inBounds hz ht, ?_, ?_⟩
  · rw [hsum]
    linarith [mul_nonpos_of_nonneg_of_nonpos ht h.row]
  · rw [hsum]
    exact hlt

end Recedes

/-! ## Solving over a box with a point -/

/-- With a point in the box every column of the row has an activity in its range. -/
theorem ranged_of_mem (hz : InBounds n l u z) :
    ∀ c ∈ rowColumns n d a l u, c.Ranged d a fun j => a j * z j := by
  intro c hc
  obtain ⟨j, hj, hne, rfl⟩ := mem_rowColumns.mp hc
  exact ⟨rfl, rfl, hne, (within_column_iff hne).mpr (hz j hj)⟩

/-- A variable off the row without a best value in its range lowers the costs without end. -/
theorem exists_recedes_of_resting (hj : j < n) (hzero : a j = 0) (hz : InBounds n l u z)
    (hnot : ¬Scalar.isFinite (column d a l u j).resting = true) :
    ∃ g, Recedes n d a l u g := by
  have hrow : ∀ q : ℚ, a j * q ≤ 0 := fun q => by rw [hzero, zero_mul]
  obtain ⟨hlow, hhigh⟩ := hz j hj
  unfold Column.resting column at hnot
  rw [zero_eq] at hnot
  simp only [ofRat_lt] at hnot
  split_ifs at hnot with hpos hneg hlower hupper
  · refine ⟨_, Recedes.single hj (q := -1) ⟨fun _ => ?_, fun h => ?_⟩ (hrow _) (by linarith)⟩
    · cases hl : l j <;> simp_all
    · exact absurd h (by norm_num)
  · refine ⟨_, Recedes.single hj (q := 1) ⟨fun h => ?_, fun _ => ?_⟩ (hrow _) (by linarith)⟩
    · exact absurd h (by norm_num)
    · cases hu : u j <;> simp_all
  · exact absurd hlower hnot
  · exact absurd hupper hnot
  · exact absurd (isFinite_ofRat 0) hnot

/-- A pivot that had better be given up, or traded against a column without a highest activity,
lowers the costs without end. -/
theorem exists_recedes_of_pivot {pivot : Column Exact}
    (hpivot : pivot? (rowColumns n d a l u) = some pivot)
    (hgain : -d pivot.var / a pivot.var < 0 ∨ ∃ c ∈ rowColumns n d a l u, c.high = .posInf ∧
      -d pivot.var / a pivot.var < -d c.var / a c.var) : ∃ g, Recedes n d a l u g := by
  obtain ⟨hmem, hlow⟩ := of_pivot?_eq_some hpivot
  obtain ⟨j, hj, hne, rfl⟩ := mem_rowColumns.mp hmem
  have hopens := opens_of_low hne hlow
  have hactivity : a j * (-1 / a j) = -1 := mul_div_cancel₀ _ hne
  have hcost : d j * (-1 / a j) = -d j / a j := by ring
  rcases hgain with hneg | ⟨c, hc, hhigh, hlt⟩
  · refine ⟨_, Recedes.single hj hopens ?_ ?_⟩
    · rw [hactivity]
      norm_num
    · rw [hcost]
      exact hneg
  · obtain ⟨k, hk, hne', rfl⟩ := mem_rowColumns.mp hc
    have hjk : j ≠ k := by
      rintro rfl
      exact lt_irrefl _ hlt
    refine ⟨_, Recedes.pair hj hk hjk hopens (opens_of_high hne' hhigh) ?_ ?_⟩
    · rw [hactivity, mul_div_cancel₀ _ hne']
      norm_num
    · have hcost' : d k * (1 / a k) = -(-d k / a k) := by ring
      rw [hcost, hcost', ← sub_eq_add_neg]
      exact sub_neg_of_lt hlt

variable {r : OneRow Exact}

theorem solveBox_of_resting (h : r.Reads n d a b) (hj : j < n) (hzero : a j = 0)
    (hnot : ¬Scalar.isFinite (column d a l u j).resting = true) :
    r.solveBox (tabulate n l) (tabulate n u) = .unbounded := by
  have hany : (((offRow n a).map (column d a l u)).any fun c => !Scalar.isFinite c.resting) =
      true := by
    rw [List.any_eq_true]
    refine ⟨_, List.mem_map_of_mem (mem_offRow.mpr ⟨hj, hzero⟩), ?_⟩
    rw [Bool.eq_false_iff.mpr hnot]
    rfl
  unfold solveBox
  dsimp only
  rw [filter_columnsOver_free h, hany]
  rfl

/-- Solving over a box with a point in the row finds it unbounded, and then there is a direction in
which the costs fall without end, or comes to a point of the box. -/
theorem solveBox_of_inBounds (h : r.Reads n d a b) (hz : InBounds n l u z)
    (hrow : ∑ j ∈ range n, a j * z j ≤ b) :
    (r.solveBox (tabulate n l) (tabulate n u) = .unbounded ∧ ∃ g, Recedes n d a l u g) ∨
    ∃ x, r.solveBox (tabulate n l) (tabulate n u) = .solved (vector n x) ∧ InBounds n l u x := by
  by_cases hrests : ∀ j < n, a j = 0 → ∃ q, (column d a l u j).resting = .ofRat q
  · have hle : ∀ j < n, l j ≤ u j := fun j hj => hz.le hj
    have hl : ∀ j < n, l j ≠ .posInf := fun j hj => hz.lower_ne_posInf hj
    have hu : ∀ j < n, u j ≠ .negInf := fun j hj => hz.upper_ne_negInf hj
    choose! rest hrest using hrests
    cases hpivot : pivot? (rowColumns n d a l u) with
    | none =>
      have hlows : ∀ j < n, a j ≠ 0 → ∃ lo, (column d a l u j).low = .ofRat lo := by
        intro j hj hne
        have hmem : column d a l u j ∈ rowColumns n d a l u := mem_rowColumns.mpr ⟨j, hj, hne, rfl⟩
        exact (ranged_of_mem hz _ hmem).low_cases.resolve_right (low_ne_negInf hpivot hmem)
      choose! lo hlo using hlows
      rcases solveBox_cases h hle hl hu hlo hrest with ⟨-, hnone⟩ | ⟨x, hsolved, hx, -⟩
      · exact absurd hrow (not_le.mpr (hnone z hz))
      · exact Or.inr ⟨x, hsolved, hx.inBounds⟩
    | some pivot =>
      rw [solveBox_eq h hrest, solveRow, hpivot]
      dsimp only
      rcases solvePriced_cases (ranged_of_mem hz) hpivot b _ with
        ⟨hunbounded, hgain⟩ | ⟨levels, hplaced, hsits, hall⟩
      · exact Or.inl ⟨hunbounded, exists_recedes_of_pivot hpivot hgain⟩
      · obtain ⟨x, hsolved, hx⟩ := ofPoint_write hsits hall
        rw [hplaced]
        refine Or.inr ⟨x, hsolved, fun j hj => ?_⟩
        by_cases hzero : a j = 0
        · rw [(hx j hj).2 hzero, if_pos hzero]
          exact (resting_best (hle j hj) (hl j hj) (hu j hj) (hrest j hj hzero)).1
        · exact (hx j hj).1 hzero
  · simp only [← isFinite_iff] at hrests
    push Not at hrests
    obtain ⟨j, hj, hzero, hnot⟩ := hrests
    exact Or.inl ⟨solveBox_of_resting h hj hzero hnot, exists_recedes_of_resting hj hzero hz hnot⟩

end

end BranchBound.OneRow
