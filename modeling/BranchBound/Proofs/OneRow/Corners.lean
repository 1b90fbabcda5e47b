import BranchBound.Proofs.OneRow.Answers
import BranchBound.Proofs.OneRow.Unbounded

/-!
# Where the relaxation puts a variable

Over a box with finite bounds the relaxation puts every variable at one of its bounds or strictly
between them (`AtOrBetween`, `point_of_answer`), whatever the costs are, invalid ones included.

The bounds may cross. A box is solved as long as no lower bound is further above the upper one than
the tolerance, and nothing is raised in a range that is empty: the variable is put at the end where
its activity is lowest. So its value may miss the other bound, by the tolerance at most.
-/

namespace BranchBound.OneRow

open Exact

/-! ## Ranges -/

/-- Whether a number is one of the ends of a range, or strictly between them. -/
def AtOrBetween (l u q : ℚ) : Prop := q = l ∨ q = u ∨ l < q ∧ q < u

/-- Ends that cross by no more than a gap have the number within that gap. -/
theorem AtOrBetween.near {l u q gap : ℚ} (h : AtOrBetween l u q) (hgap : 0 ≤ gap)
    (hle : l ≤ u + gap) : l - gap ≤ q ∧ q ≤ u + gap := by
  rcases h with rfl | rfl | ⟨hl, hu⟩
  · exact ⟨by linarith, hle⟩
  · exact ⟨by linarith, by linarith⟩
  · exact ⟨by linarith, by linarith⟩

/-! ## Columns with finite bounds -/

/-- A column with a finite coefficient and given bounds. Its cost may be anything. -/
structure Column.Bounded (l u : Nat → ℚ) (c : Column Exact) : Prop where
  coef : Scalar.isFinite c.coef = true
  lower : c.lower = .ofRat (l c.var)
  upper : c.upper = .ofRat (u c.var)

/-- Whether the value at a level is at a bound or strictly between the bounds. -/
def Column.Lands (l u : Nat → ℚ) (c : Column Exact) (level : Level Exact) : Prop :=
  ∃ q : ℚ, c.value level = .ofRat q ∧ AtOrBetween (l c.var) (u c.var) q

namespace Column.Bounded

variable {l u : Nat → ℚ} {c : Column Exact}

theorem exists_resting (h : c.Bounded l u) :
    ∃ q : ℚ, c.resting = .ofRat q ∧ AtOrBetween (l c.var) (u c.var) q := by
  unfold Column.resting
  rw [h.lower, h.upper, isFinite_ofRat, if_pos rfl]
  split_ifs
  · exact ⟨_, rfl, Or.inl rfl⟩
  · exact ⟨_, rfl, Or.inr (Or.inl rfl)⟩
  · exact ⟨_, rfl, Or.inl rfl⟩

theorem lands_low (h : c.Bounded l u) : c.Lands l u .low := by
  unfold Column.Lands Column.value
  rw [h.lower, h.upper]
  dsimp only
  split
  · exact ⟨_, rfl, Or.inl rfl⟩
  · exact ⟨_, rfl, Or.inr (Or.inl rfl)⟩

theorem lands_high (h : c.Bounded l u) : c.Lands l u .high := by
  unfold Column.Lands Column.value
  rw [h.lower, h.upper]
  dsimp only
  split
  · exact ⟨_, rfl, Or.inr (Or.inl rfl)⟩
  · exact ⟨_, rfl, Or.inl rfl⟩

/-- The ends of the activity are the bounds times the coefficient. -/
theorem activity_cases (h : c.Bounded l u) (hne : (c.coef == 0.0) = false) :
    ∃ a : ℚ, c.coef = .ofRat a ∧
      (0 < a ∧ c.low = .ofRat (a * l c.var) ∧ c.high = .ofRat (a * u c.var) ∨
        a < 0 ∧ c.low = .ofRat (a * u c.var) ∧ c.high = .ofRat (a * l c.var)) := by
  obtain ⟨a, ha⟩ := isFinite_iff.mp h.coef
  rw [ha, zero_eq, beq_ofRat, decide_eq_false_iff_not] at hne
  refine ⟨a, ha, ?_⟩
  unfold Column.low Column.high
  rw [ha, h.lower, h.upper, zero_eq, ofRat_mul, ofRat_mul]
  simp only [ofRat_lt]
  rcases lt_or_gt_of_ne hne with hneg | hpos
  · rw [if_neg (not_lt.mpr hneg.le), if_neg (not_lt.mpr hneg.le)]
    exact Or.inr ⟨hneg, rfl, rfl⟩
  · rw [if_pos hpos, if_pos hpos]
    exact Or.inl ⟨hpos, rfl, rfl⟩

theorem exists_low (h : c.Bounded l u) (hne : (c.coef == 0.0) = false) :
    ∃ lo : ℚ, c.low = .ofRat lo := by
  obtain ⟨a, -, ⟨-, hlow, -⟩ | ⟨-, hlow, -⟩⟩ := h.activity_cases hne
  · exact ⟨_, hlow⟩
  · exact ⟨_, hlow⟩

theorem exists_high (h : c.Bounded l u) (hne : (c.coef == 0.0) = false) :
    ∃ hi : ℚ, c.high = .ofRat hi := by
  obtain ⟨a, -, ⟨-, -, hhigh⟩ | ⟨-, -, hhigh⟩⟩ := h.activity_cases hne
  · exact ⟨_, hhigh⟩
  · exact ⟨_, hhigh⟩

/-- An activity strictly between the lowest and the highest is that of a value strictly between the
bounds. -/
theorem lands_at (h : c.Bounded l u) (hne : (c.coef == 0.0) = false) {y : ℚ}
    (hlow : c.low < .ofRat y) (hhigh : .ofRat y < c.high) : c.Lands l u (.at (.ofRat y)) := by
  obtain ⟨a, ha, hcases⟩ := h.activity_cases hne
  have hvalue : a ≠ 0 → c.value (.at (.ofRat y)) = .ofRat (y / a) := fun hzero => by
    show Exact.ofRat y / c.coef = _
    rw [ha, ofRat_div _ hzero]
  rcases hcases with ⟨hpos, hlo, hhi⟩ | ⟨hneg, hlo, hhi⟩
  · rw [hlo, ofRat_lt, mul_comm] at hlow
    rw [hhi, ofRat_lt, mul_comm] at hhigh
    exact ⟨_, hvalue hpos.ne', Or.inr (Or.inr
      ⟨(lt_div_iff₀ hpos).mpr hlow, (div_lt_iff₀ hpos).mpr hhigh⟩)⟩
  · rw [hlo, ofRat_lt, mul_comm] at hlow
    rw [hhi, ofRat_lt, mul_comm] at hhigh
    exact ⟨_, hvalue hneg.ne, Or.inr (Or.inr
      ⟨(lt_div_iff_of_neg hneg).mpr hhigh, (div_lt_iff_of_neg hneg).mpr hlow⟩)⟩

end Column.Bounded

/-! ## Solving a row -/

section

variable {l u : Nat → ℚ} {cols : List (Column Exact)}

/-- What a rational slack fills in ends up at a bound or strictly between the bounds. -/
theorem lands_of_mem_fill (hcols : ∀ c ∈ cols, c.Bounded l u ∧ (c.coef == 0.0) = false) {slack : ℚ}
    {cl : Column Exact × Level Exact} (hcl : cl ∈ fill (.ofRat slack) cols) :
    cl.1.Lands l u cl.2 := by
  induction cols generalizing slack with
  | nil => cases hcl
  | cons c rest ih =>
    obtain ⟨hc, hne⟩ := hcols c List.mem_cons_self
    obtain ⟨lo, hlo⟩ := hc.exists_low hne
    obtain ⟨hi, hhi⟩ := hc.exists_high hne
    rw [fill, hlo, hhi, zero_eq] at hcl
    simp only [ofRat_sub, ofRat_add, ofRat_le] at hcl
    split at hcl
    · cases hcl
    · rename_i hslack
      split at hcl
      · rcases List.mem_cons.mp hcl with rfl | hcl
        · exact hc.lands_high
        · exact ih (fun e he => hcols e (List.mem_cons_of_mem c he)) hcl
      · rename_i hroom
        rw [List.mem_singleton.mp hcl]
        refine hc.lands_at hne ?_ ?_
        · rw [hlo, ofRat_lt]
          linarith
        · rw [hhi, ofRat_lt]
          linarith

/-- A row of columns with finite bounds is solved by writing values at bounds or strictly between
them, for each of its columns. -/
theorem exists_levels_of_solveRow (hcols : ∀ c ∈ cols, c.Bounded l u ∧ (c.coef == 0.0) = false)
    {b : ℚ} {x point : Array Exact} (h : solveRow (.ofRat b) cols x = .solved point) :
    ∃ levels, point = write x levels ∧ (∀ cl ∈ levels, cl.1.Lands l u cl.2) ∧
      ∀ c ∈ cols, ∃ cl ∈ levels, cl.1.var = c.var := by
  have hlow : ∀ c ∈ cols, ∃ lo : ℚ, c.low = .ofRat lo := fun c hc =>
    (hcols c hc).1.exists_low (hcols c hc).2
  -- no column sets a price
  have hpivot : pivot? cols = none := by
    rcases pivot?_cases cols with ⟨pivot, -, hmem, hinf⟩ | ⟨hnone, -⟩
    · obtain ⟨lo, hlo⟩ := hlow pivot hmem
      rw [beq_negInf_iff, hlo] at hinf
      cases hinf
    · exact hnone
  have hlevels : ∀ cl ∈ cols.map fun c => (c, Level.low (α := Exact)), cl.1 ∈ cols ∧ cl.2 = .low :=
      fun cl hcl => by
    obtain ⟨c, hc, rfl⟩ := List.mem_map.mp hcl
    exact ⟨hc, rfl⟩
  obtain ⟨activity, hactivity⟩ : ∃ q : ℚ,
      rowActivity (cols.map fun c => (c, Level.low)) = .ofRat q :=
    exists_rowActivity fun cl hcl => by
      rw [(hlevels cl hcl).2]
      exact hlow cl.1 (hlevels cl hcl).1
  unfold solveRow solveBounded at h
  rw [hpivot] at h
  dsimp only at h
  rw [hactivity, ofRat_sub, zero_eq, maxNum_ofRat] at h
  split at h
  · cases h
  · unfold Placement.ofPoint at h
    split at h
    · cases h
    · refine ⟨_, (Placement.solved.inj h).symm, List.forall_mem_append.mpr ⟨?_, ?_⟩, ?_⟩
      · intro cl hcl
        rw [(hlevels cl hcl).2]
        exact (hcols cl.1 (hlevels cl hcl).1).1.lands_low
      · intro cl hcl
        refine lands_of_mem_fill (fun c hc => ?_) hcl
        obtain ⟨level, hmem, -⟩ := mem_risers.mp hc
        exact hcols c (hlevels _ hmem).1
      · exact fun c hc => ⟨_, List.mem_append_left _ (List.mem_map_of_mem hc), rfl⟩

end

/-! ## Solving over a box -/

section

variable {r : OneRow Exact} {l u : Nat → ℚ} {lower upper : Array Exact}

/-- Every coordinate of a solved box with finite bounds is a bound or strictly between the
bounds. -/
theorem coordinate_of_solveBox (hcols : ∀ c ∈ r.columnsOver lower upper, c.Bounded l u)
    (hall : ∀ j < r.costs.size, ∃ c ∈ r.columnsOver lower upper, c.var = j)
    (hrhs : ∀ row, r.row? = some row → Scalar.isFinite row.rhs = true)
    (hnone : r.row? = none → ∀ c ∈ r.columnsOver lower upper, (c.coef == 0.0) = true)
    {x : Array Exact} (h : r.solveBox lower upper = .solved x) {j : Nat} {v : Exact}
    (hv : x[j]? = some v) : ∃ q : ℚ, v = .ofRat q ∧ AtOrBetween (l j) (u j) q := by
  let cols := r.columnsOver lower upper
  let free := cols.filter fun c => c.coef == 0.0
  let rested := free.foldl (fun x c => x.setIfInBounds c.var c.resting)
    (Array.replicate r.costs.size 0.0)
  -- a coordinate that is left at its resting value is that of a column off the row
  have hrested : (∀ c ∈ cols, c.var = j → (c.coef == 0.0) = true) → rested[j]? = some v →
      ∃ q : ℚ, v = .ofRat q ∧ AtOrBetween (l j) (u j) q := by
    intro hoff hv
    rcases foldl_set_cases Column.var Column.resting hv with ⟨c, hc, rfl, rfl⟩ | ⟨hunset, hzero⟩
    · exact (hcols c (List.mem_filter.mp hc).1).exists_resting
    · have hj := (Array.getElem?_eq_some_iff.mp hzero).1
      rw [Array.size_replicate] at hj
      obtain ⟨c, hc, rfl⟩ := hall j hj
      exact absurd rfl (hunset c (List.mem_filter.mpr ⟨hc, hoff c hc rfl⟩))
  unfold solveBox at h
  dsimp only at h
  split at h
  · cases h
  · split at h
    · rename_i row hrow
      obtain ⟨b, hb⟩ := isFinite_iff.mp (hrhs row hrow)
      rw [hb] at h
      have hbound : ∀ c ∈ cols.filter fun c => !(c.coef == 0.0),
          c.Bounded l u ∧ (c.coef == 0.0) = false := fun c hc =>
        ⟨hcols c (List.mem_filter.mp hc).1, by simpa using (List.mem_filter.mp hc).2⟩
      obtain ⟨levels, rfl, hlands, hplaced⟩ := exists_levels_of_solveRow hbound h
      rcases write_cases hv with ⟨cl, hcl, rfl, rfl⟩ | ⟨hunset, hkept⟩
      · exact hlands cl hcl
      · refine hrested (fun c hc hvar => ?_) hkept
        by_contra hne
        obtain ⟨cl, hcl, heq⟩ := hplaced c (List.mem_filter.mpr ⟨hc, by simpa using hne⟩)
        exact hunset cl hcl (heq.trans hvar)
    · rename_i hrow
      obtain rfl := Placement.solved.inj h
      exact hrested (fun c hc _ => hnone hrow c hc) hv

variable {p : Program Exact}

/-- The columns of a well-formed program over finite bounds: each variable has one. -/
theorem bounded_columnsOver (hp : p.WellFormed) (hr : ofProgram p = .ok r) :
    (∀ c ∈ r.columnsOver (vector p.size l) (vector p.size u), c.Bounded l u ∧
      (r.row? = none → (c.coef == 0.0) = true)) ∧
    ∀ j < p.size, ∃ c ∈ r.columnsOver (vector p.size l) (vector p.size u), c.var = j := by
  have hprogram := (ofProgram_eq_ok hr).2.1
  have hsize := size_costs hr
  obtain ⟨d, hd⟩ := exists_eq_tabulate hsize (.ofRat 0)
  obtain ⟨a, hcolumns, hzero⟩ : ∃ a : Nat → ℚ,
      r.columnsOver (vector p.size l) (vector p.size u) =
        columns r.costs (vector p.size a) (vector p.size l) (vector p.size u) ∧
      (r.row? = none → ∀ j, a j = 0) := by
    unfold columnsOver
    cases hrow : r.row? with
    | none =>
      have hzeros : Array.replicate r.costs.size (0.0 : Exact) = vector p.size fun _ => 0 :=
        eq_tabulate (by simp [hsize]) fun j hj => by simp [hsize, hj]
      exact ⟨fun _ => 0, by rw [← hzeros], fun _ _ => rfl⟩
    | some row =>
      have hmem : row ∈ p.rows := by
        unfold row? at hrow
        rw [hprogram] at hrow
        exact Array.mem_of_getElem? hrow
      obtain ⟨a, ha⟩ := exists_eq_vector (hp.finite_row row hmem).1
      rw [hp.size_row row hmem] at ha
      exact ⟨a, by rw [← ha], fun hnone => nomatch hnone⟩
  rw [hcolumns, hd]
  unfold vector
  rw [columns_tabulate]
  constructor
  · intro c hc
    obtain ⟨j, -, rfl⟩ := List.mem_map.mp hc
    refine ⟨⟨rfl, rfl, rfl⟩, fun hnone => ?_⟩
    dsimp only
    rw [hzero hnone j, zero_eq]
    rfl
  · exact fun j hj => ⟨_, List.mem_map_of_mem (List.mem_range.mpr hj), rfl⟩

/-- A feasible answer is a solved box whose bounds cross by the tolerance at most. -/
theorem solved_of_answer {α : Type} [Scalar α] {r : OneRow α} {node : Node α}
    {lower upper : Array α}
    (htighten : node.tighten r.program.lower r.program.upper = .ok (lower, upper))
    {cutoff : Option (Cutoff α)} {answer : Answer α} (h : r.answer node cutoff = .ok answer)
    (hfeasible : answer.verdict.isFeasible = true) :
    r.solveBox lower upper = .solved answer.point ∧
      ¬((lower.zip upper).any fun (l, u) => decide (u + boundTolerance < l)) = true := by
  rw [answer_of_tighten htighten] at h
  split at h
  · rw [← Except.ok.inj h] at hfeasible
    cases hfeasible
  · rename_i huncrossed
    split at h
    · rw [← Except.ok.inj h] at hfeasible
      cases hfeasible
    · rw [← Except.ok.inj h] at hfeasible
      cases hfeasible
    · rename_i x hsolved
      split at h
      · rw [← Except.ok.inj h] at hfeasible
        cases hfeasible
      · rw [← Except.ok.inj h]
        exact ⟨hsolved, huncrossed⟩

/-- The point of a feasible answer over finite bounds: the bounds cross by the tolerance at most,
and each coordinate is at a bound or strictly between the bounds. -/
theorem point_of_answer (hp : p.WellFormed) (hr : ofProgram p = .ok r) {node : Node Exact}
    (htighten : node.tighten p.lower p.upper = .ok (vector p.size l, vector p.size u))
    {cutoff : Option (Cutoff Exact)} {answer : Answer Exact}
    (h : r.answer node cutoff = .ok answer) (hfeasible : answer.verdict.isFeasible = true)
    {j : Nat} (hj : j < p.size) : l j ≤ u j + 1 / 10 ^ 9 ∧
      ∀ v, answer.point[j]? = some v → ∃ q : ℚ, v = .ofRat q ∧ AtOrBetween (l j) (u j) q := by
  obtain ⟨-, rfl, -⟩ := ofProgram_eq_ok hr
  obtain ⟨hsolved, huncrossed⟩ := solved_of_answer htighten h hfeasible
  obtain ⟨hcols, hall⟩ := bounded_columnsOver (l := l) (u := u) hp hr
  refine ⟨?_, fun v hv => ?_⟩
  · by_contra hlt
    refine huncrossed ?_
    unfold vector
    rw [zip_tabulate, any_tabulate]
    refine ⟨j, hj, decide_eq_true ?_⟩
    rw [boundTolerance_eq, ofRat_add, ofRat_lt]
    exact not_le.mp hlt
  · refine coordinate_of_solveBox (fun c hc => (hcols c hc).1) ?_ (fun row hrow => ?_)
      (fun hnone c hc => (hcols c hc).2 hnone) hsolved hv
    · rwa [size_costs hr]
    · exact (hp.finite_row row (Array.mem_of_getElem? hrow)).2

end

end BranchBound.OneRow
