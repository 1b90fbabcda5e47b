import BranchBound.Proofs.OneRow.Bounds
import BranchBound.Proofs.OneRow.Settling
import BranchBound.Proofs.OneRow.Unbounded

/-!
# The balance of a row of doubles

The point that is written for a row of doubles of moderate size stands at levels whose activities
are within the right-hand side together, up to a leeway and some errors of rounding
(`Scaled.exists_rests`). Without a pivot this is the tolerance of the solver, and what is raised
does not take more than the slack. With a pivot the activity that it takes up is the slack itself.
-/

namespace BranchBound.OneRow

open Double

/-! ## Tolerances -/

/-- A tolerance that grows with a right-hand side is rounded as well. -/
theorem exists_tolerance {tolerance rhs : Float} {t b : ℚ} (htolerance : value tolerance = .ofRat t)
    (ht : |t| ≤ 1) (hrhs : value rhs = .ofRat b) (hb : 4 * (1 + |b|) ≤ ceiling) :
    ∃ q, value (tolerance * (1.0 + Scalar.abs rhs)) = .ofRat q ∧
      |q - t * (1 + |b|)| ≤ 4 * (roundoff * (1 + |b|)) := by
  have habs : value (Scalar.abs rhs) = .ofRat |b| := by
    rw [← Exact.abs_ofRat, ← hrhs]
    exact value_abs rhs
  have hb0 := abs_nonneg b
  have hm : |(1 + |b|)| = 1 + |b| := abs_of_pos (by linarith)
  obtain ⟨m, hm', -, herror⟩ := exists_add value_one habs (by rw [hm]; linarith)
  rw [hm] at herror
  obtain ⟨hlo, hhi⟩ := abs_le.mp herror
  have hshare : roundoff * (1 + |b|) ≤ 1 * (1 + |b|) :=
    mul_le_mul_of_nonneg_right (by norm_num [roundoff]) (by linarith)
  have hmle : |m| ≤ 2 * (1 + |b|) := abs_le.mpr ⟨by linarith, by linarith⟩
  have hproduct : |t * m| ≤ |m| := by
    rw [abs_mul]
    exact mul_le_of_le_one_left (abs_nonneg m) ht
  obtain ⟨q, hq, -, herror'⟩ := exists_mul htolerance hm' (hproduct.trans (by linarith))
  refine ⟨q, hq, ?_⟩
  have hscaled : |t * m - t * (1 + |b|)| ≤ |m - (1 + |b|)| := by
    rw [← mul_sub, abs_mul]
    exact mul_le_of_le_one_left (abs_nonneg _) ht
  have htriangle := abs_sub_le q (t * m) (t * (1 + |b|))
  have hmul := mul_le_mul_of_nonneg_left (hproduct.trans hmle) roundoff_pos.le
  have hleast := least_le_roundoff
  have hone : roundoff * 1 ≤ roundoff * (1 + |b|) :=
    mul_le_mul_of_nonneg_left (by linarith) roundoff_pos.le
  have hpos := roundoff_pos
  linarith

section

variable {a w : Nat → ℚ} {n : ℕ} {b size : ℚ} {cols rest : List (Column Float)}

/-! ## Points that are written -/

/-- A point in which the columns of a row stand at levels with activities, and the other coordinates
are those of another point. -/
structure Rests (cols : List (Column Float)) (x point : Array Float) (y : Nat → ℚ) : Prop where
  on : ∀ c ∈ cols, ∀ v, point[c.var]? = some v →
    ∃ level, c.value level = v ∧ c.Settles level (y c.var)
  off : ∀ j v, point[j]? = some v → (∀ c ∈ cols, c.var ≠ j) → x[j]? = some v
  finite : ∀ v ∈ point, Scalar.isFinite v = true
  size : point.size = x.size

/-- The later levels of a variable are written over the first ones. -/
theorem rests_of_write {first later : List (Column Float × Level Float)} {x point : Array Float}
    {y : Nat → ℚ} (hnodup : (cols.map Column.var).Nodup)
    (hfirst : ∀ cl ∈ first, cl.1 ∈ cols ∧
      ((∀ e ∈ later, e.1.var ≠ cl.1.var) → cl.1.Settles cl.2 (y cl.1.var)))
    (hlater : ∀ cl ∈ later, cl.1 ∈ cols ∧ cl.1.Settles cl.2 (y cl.1.var))
    (hall : ∀ c ∈ cols, ∃ cl ∈ first ++ later, cl.1.var = c.var)
    (hsolved : Placement.ofPoint (write x (first ++ later)) = .solved point) :
    Rests cols x point y := by
  unfold Placement.ofPoint at hsolved
  split at hsolved
  · cases hsolved
  rename_i hfinite
  obtain rfl := Placement.solved.inj hsolved
  refine ⟨fun c hc v hv => ?_, fun j v hv hoff => ?_, fun v hv => ?_, size_write _ _⟩
  · rw [write_append] at hv
    rcases write_cases hv with ⟨cl, hcl, hvar, hvalue⟩ | ⟨hlast, hv⟩
    · obtain ⟨hmem, hsettles⟩ := hlater cl hcl
      obtain rfl := List.inj_on_of_nodup_map hnodup hmem hc hvar
      exact ⟨cl.2, hvalue, hsettles⟩
    rcases write_cases hv with ⟨cl, hcl, hvar, hvalue⟩ | ⟨hnone, -⟩
    · obtain ⟨hmem, hsettles⟩ := hfirst cl hcl
      obtain rfl := List.inj_on_of_nodup_map hnodup hmem hc hvar
      exact ⟨cl.2, hvalue, hsettles hlast⟩
    · obtain ⟨cl, hcl, hvar⟩ := hall c hc
      rcases List.mem_append.mp hcl with hcl | hcl
      · exact absurd hvar (hnone cl hcl)
      · exact absurd hvar (hlast cl hcl)
  · rcases write_cases hv with ⟨cl, hcl, hvar, -⟩ | ⟨-, hv⟩
    · rcases List.mem_append.mp hcl with hcl | hcl
      · exact absurd hvar (hoff cl.1 (hfirst cl hcl).1)
      · exact absurd hvar (hoff cl.1 (hlater cl hcl).1)
    · exact hv
  · have hnot := Array.any_eq_false'.mp (Bool.eq_false_iff.mpr hfinite) v hv
    rwa [Bool.not_eq_true', Bool.not_eq_false] at hnot

/-! ## Solving the row -/

/-- How far above a right-hand side of zero the activity of a row may be. -/
def leeway : ℚ := 101 / 10 ^ 11

theorem leeway_mul_nonneg (b : ℚ) : 0 ≤ leeway * (1 + |b|) :=
  mul_nonneg (by norm_num [leeway]) (by linarith [abs_nonneg b])

/-- Activities that are within the right-hand side together, up to the leeway and the errors, and
none of which is great. -/
structure Balanced (n : ℕ) (b size : ℚ) (cols : List (Column Float)) (y : Nat → ℚ) : Prop where
  total_le : (cols.map fun c => y c.var).sum ≤ b + leeway * (1 + |b|) + 20 * slop n size
  abs_le : (cols.map fun c => |y c.var|).sum ≤ 11 * size

namespace Scaled

variable {pivot : Column Float} {rhs : Float} {x point : Array Float}
  (h : Scaled a w n b size cols) (hrhs : value rhs = .ofRat b)

include h hrhs

/-- The slack of a row that is not infeasible is hardly negative. -/
theorem neg_leeway_le {slack : Float} {σ : ℚ} (hσ : value slack = .ofRat σ)
    (hslack : ¬slack < -boundTolerance * (1.0 + Scalar.abs rhs)) : -(leeway * (1 + |b|)) ≤ σ := by
  have htolerance : value (-boundTolerance) = .ofRat (-(4835703278458517 / 2 ^ 82)) := by
    rw [value_neg, value_boundTolerance, Exact.neg_ofRat]
  have hb := abs_nonneg b
  obtain ⟨q, hq, herror⟩ := exists_tolerance htolerance (by norm_num [abs_le]) hrhs
    (by linarith [h.one_add_abs_le, h.le_ceiling])
  rw [lt_iff, hσ, hq, Exact.ofRat_lt, not_lt] at hslack
  have hlo := (abs_le.mp herror).1
  unfold leeway roundoff at *
  linarith

theorem exists_rests_of_solveBounded (hlow : ∀ c ∈ cols, value c.low ≠ .negInf)
    (hsolved : solveBounded rhs cols x = .solved point) :
    ∃ y, Rests cols x point y ∧ Balanced n b size cols y := by
  obtain ⟨y, hy⟩ : ∃ y, Leveled w (fun _ => .low) cols y := exists_leveled h.nodup fun c hc => by
    obtain ⟨lo, hlo, hmeets⟩ := (h.measured c hc).low_cases.resolve_left (hlow c hc)
    exact ⟨lo, Column.settles_low hlo, hmeets.abs_le⟩
  have hsub := List.Sublist.refl cols
  obtain ⟨σ, hσ, herror, hle⟩ := h.exists_slack hsub hy hrhs
  unfold solveBounded at hsolved
  dsimp only at hsolved
  split at hsolved
  · cases hsolved
  rename_i hslack
  have hleeway := h.neg_leeway_le hrhs hσ hslack
  have hmax : value (Scalar.maxNum (rhs - rowActivity (cols.map fun c => (c, Level.low))) 0.0) =
      .ofRat (max σ 0) := by
    rw [← Exact.maxNum_ofRat, ← hσ, ← value_zero]
    exact Lawful.value_maxNum (rhs - rowActivity (cols.map fun c => (c, Level.low))) 0.0
  obtain ⟨hlo, hhi⟩ := abs_le.mp hle
  obtain ⟨hlo', hhi'⟩ := abs_le.mp herror
  have hone := h.one_le
  have hsize := h.slop_le_size
  have hslop := h.slop_nonneg
  have hb := abs_nonneg b
  obtain ⟨z, hz⟩ := h.exists_raised hsub hy hmax (max_le (by linarith) (by linarith))
  obtain ⟨htotal, habs⟩ := hz.sums_le h.nodup
  rw [max_assoc, max_self] at htotal habs
  have hsum := h.sum_abs_le hsub hy
  refine ⟨z, rests_of_write h.nodup (List.forall_mem_map.mpr fun c hc => ⟨hc, fun hnone => ?_⟩)
    (fun cl hcl => ?_) (fun c hc => ?_) hsolved, ?_, ?_⟩
  · rw [hz.unplaced c.var hnone]
    exact hy.settles c hc
  · obtain ⟨hmem, hsettles⟩ := hz.placed cl hcl
    exact ⟨(mem_risers_map.mp hmem).1, hsettles⟩
  · exact ⟨_, List.mem_append_left _ (List.mem_map_of_mem hc), rfl⟩
  · rcases le_total σ 0 with h0 | h0
    · rw [max_eq_right h0] at htotal
      linarith
    · rw [max_eq_left h0] at htotal
      linarith [leeway_mul_nonneg b]
  · have hmax4 : max σ 0 ≤ 4 * size := max_le hhi (by linarith)
    linarith

end Scaled

section

variable {pivot : Column Float} {x point : Array Float} {y : Nat → ℚ}
  (hnodup : (cols.map Column.var).Nodup) (hmem : pivot ∈ cols)

include hnodup hmem

theorem sum_abs_update_pivot (v : ℚ) :
    (cols.map fun c => |Function.update y pivot.var v c.var|).sum =
      |v| + ((cols.filter fun c => c.var != pivot.var).map fun c => |y c.var|).sum := by
  have hcomp : (fun c : Column Float => |Function.update y pivot.var v c.var|) =
      fun c => Function.update (fun j => |y j|) pivot.var |v| c.var :=
    funext fun c => congrFun (Function.comp_update abs y pivot.var v) c.var
  rw [hcomp]
  exact sum_update_pivot hnodup hmem |v|

/-- The point that is written for the others, some of them raised, and the pivot. -/
theorem rests_of_others {filled : List (Column Float × Level Float)} {level : Level Float}
    (hpivot : pivot.Settles level (y pivot.var))
    (hfilled : ∀ cl ∈ filled, cl.1 ∈ cols ∧ cl.1.Settles cl.2 (y cl.1.var))
    (hothers : ∀ c ∈ cols, c.var ≠ pivot.var → (∀ cl ∈ filled, cl.1.var ≠ c.var) →
      c.Settles (c.priced pivot.gain) (y c.var))
    (hsolved : Placement.ofPoint (write x (others cols pivot ++ filled ++ [(pivot, level)])) =
      .solved point) : Rests cols x point y := by
  rw [List.append_assoc] at hsolved
  have hlast : ∀ cl ∈ [(pivot, level)], cl.1 ∈ cols ∧ cl.1.Settles cl.2 (y cl.1.var) :=
    List.forall_mem_singleton.mpr ⟨hmem, hpivot⟩
  refine rests_of_write hnodup (fun cl hcl => ?_) (List.forall_mem_append.mpr ⟨hfilled, hlast⟩)
    (fun c hc => ?_) hsolved
  · obtain ⟨hc, hvar, hlevel⟩ := mem_others.mp hcl
    refine ⟨hc, fun hnone => ?_⟩
    rw [hlevel]
    exact hothers cl.1 hc hvar fun e he => hnone e (List.mem_append_left _ he)
  · by_cases hvar : c.var = pivot.var
    · exact ⟨(pivot, level), by simp, hvar.symm⟩
    · exact ⟨(c, c.priced pivot.gain), List.mem_append_left _ (mem_others.mpr ⟨hc, hvar, rfl⟩), rfl⟩

end

namespace Scaled

variable {pivot : Column Float} {rhs : Float} {x point : Array Float} {y : Nat → ℚ}
  (h : Scaled a w n b size cols)

/-- The columns other than the pivot settle at its price, if none that gains more is without end. -/
theorem exists_leveled_others (h : Scaled a w n b size cols) (hpivot : pivot? cols = some pivot)
    (hfloor : ¬pivot.gain < floorPrice cols) :
    ∃ y, Leveled w (fun c => c.priced pivot.gain) (cols.filter fun c => c.var != pivot.var) y := by
  obtain ⟨hmem, -, hleast⟩ := pivot_spec h.measured hpivot
  obtain ⟨hvalid, hhighest⟩ := floorPrice_valid h.measured
  have hprice := (h.measured pivot hmem).valid_gain
  rw [lt_iff] at hfloor
  refine exists_leveled (h.nodup.sublist (List.filter_sublist.map Column.var)) fun c hc => ?_
  have hc := (List.mem_filter.mp hc).1
  exact (h.measured c hc).exists_settles_priced hprice (hleast c hc) fun hinf =>
    Exact.le_trans (hhighest c hc hinf) (Exact.le_of_not_lt hvalid hprice hfloor)

variable (hmem : pivot ∈ cols)
  (hy : Leveled w (fun c => c.priced pivot.gain) (cols.filter fun c => c.var != pivot.var) y)
  {σ : ℚ} (hσ : value (rhs - rowActivity (others cols pivot)) = .ofRat σ)
  (herror : |σ - (b - ((cols.filter fun c => c.var != pivot.var).map fun c => y c.var).sum)| ≤
    7 * slop n size) (hle : |σ| ≤ 4 * size)

include h hmem hy hσ herror hle

/-- A pivot with room for the slack takes it. -/
theorem exists_rests_of_fits (hlow : value pivot.low = .negInf)
    (hroom : ¬pivot.high ≤ rhs - rowActivity (others cols pivot))
    (hsolved : Placement.ofPoint (write x (others cols pivot ++
      [(pivot, .at (rhs - rowActivity (others cols pivot)))])) = .solved point) :
    ∃ y, Rests cols x point y ∧ Balanced n b size cols y := by
  have hmeasured := h.measured pivot hmem
  have hone := h.one_le
  have hsettles : pivot.Settles (.at (rhs - rowActivity (others cols pivot))) σ := by
    refine hmeasured.settles_at hσ (by linarith [h.le_ceiling]) fun ξ hξ =>
      Or.inr (Or.inr (hmeasured.between hσ hξ ?_ ?_))
    · rw [lt_iff, hlow, hσ]
      exact Exact.negInf_lt_ofRat σ
    · rw [lt_iff, hσ]
      rw [le_iff, hσ] at hroom
      rcases hmeasured.high_cases with hinf | ⟨hi, hhi, -⟩
      · rw [hinf]
        exact Exact.ofRat_lt_posInf σ
      · rw [hhi, Exact.ofRat_le, not_le] at hroom
        rwa [hhi, Exact.ofRat_lt]
  have hfilled : ∀ cl ∈ ([] : List (Column Float × Level Float)), cl.1 ∈ cols ∧
      cl.1.Settles cl.2 (Function.update y pivot.var σ cl.1.var) :=
    fun cl hcl => absurd hcl List.not_mem_nil
  refine ⟨Function.update y pivot.var σ, rests_of_others h.nodup hmem ?_ hfilled
    (fun c hc hvar _ => ?_) (by rwa [List.append_nil]), ?_, ?_⟩
  · rwa [Function.update_self]
  · rw [Function.update_of_ne hvar]
    exact hy.settles c (List.mem_filter.mpr ⟨hc, bne_iff_ne.mpr hvar⟩)
  · rw [sum_update_pivot h.nodup hmem]
    linarith [leeway_mul_nonneg b, (abs_le.mp herror).2, h.slop_nonneg]
  · rw [sum_abs_update_pivot h.nodup hmem]
    linarith [h.sum_abs_le List.filter_sublist hy, abs_nonneg b]

/-- What a pivot at its highest activity leaves of the slack is filled in. -/
theorem exists_rests_of_exceeded (hroom : pivot.high ≤ rhs - rowActivity (others cols pivot))
    (hsolved : Placement.ofPoint (write x (others cols pivot ++
      fill (rhs - rowActivity (others cols pivot) - pivot.high) (risers (others cols pivot)) ++
      [(pivot, .high)])) = .solved point) :
    ∃ y, Rests cols x point y ∧ Balanced n b size cols y := by
  have hone := h.one_le
  have hsize := h.slop_le_size
  have hslop := h.slop_nonneg
  rw [le_iff, hσ] at hroom
  obtain ⟨hi, hhi, hmeets⟩ := (h.measured pivot hmem).high_cases.resolve_left fun hinf => by
    rw [hinf] at hroom
    exact Exact.not_posInf_le_ofRat _ hroom
  rw [hhi, Exact.ofRat_le] at hroom
  have hreach := hmeets.abs_le.trans (h.reach_le hmem)
  obtain ⟨hlo, hhi'⟩ := abs_le.mp hle
  obtain ⟨hlo', hhi''⟩ := abs_le.mp hreach
  have hleft : |σ - hi| ≤ 6 * size := abs_le.mpr ⟨by linarith, by linarith⟩
  obtain ⟨τ, hτ, -, herror'⟩ := exists_sub hσ hhi (by linarith [h.le_ceiling])
  have hshare := mul_le_mul_of_nonneg_left hleft roundoff_pos.le
  have hτle : τ ≤ σ - hi + 6 * slop n size := by
    linarith [(abs_le.mp herror').2, h.roundoff_mul_le]
  have hmax : max τ 0 ≤ σ - hi + 6 * slop n size := max_le hτle (by linarith)
  have hsub : (cols.filter fun c => c.var != pivot.var).Sublist cols := List.filter_sublist
  obtain ⟨z, hz⟩ := h.exists_raised hsub hy hτ (by linarith)
  obtain ⟨htotal, habs⟩ := hz.sums_le (h.nodup.sublist (hsub.map Column.var))
  have hfill : ∀ cl ∈ fill (rhs - rowActivity (others cols pivot) - pivot.high)
      (risers (others cols pivot)), cl.1 ∈ cols ∧ cl.1.var ≠ pivot.var := fun cl hcl => by
    obtain ⟨hc, hvar, -⟩ := mem_risers_others.mp (mem_fill hcl).1
    exact ⟨hc, hvar⟩
  refine ⟨Function.update z pivot.var hi, rests_of_others h.nodup hmem ?_ (fun cl hcl => ?_)
    (fun c hc hvar hnone => ?_) hsolved, ?_, ?_⟩
  · rw [Function.update_self]
    exact Column.settles_high hhi
  · obtain ⟨hc, hvar⟩ := hfill cl hcl
    rw [Function.update_of_ne hvar]
    exact ⟨hc, (hz.placed cl hcl).2⟩
  · rw [Function.update_of_ne hvar, hz.unplaced c.var hnone]
    exact hy.settles c (List.mem_filter.mpr ⟨hc, bne_iff_ne.mpr hvar⟩)
  · rw [sum_update_pivot h.nodup hmem]
    linarith [leeway_mul_nonneg b, (abs_le.mp herror).2]
  · rw [sum_abs_update_pivot h.nodup hmem]
    linarith [h.sum_abs_le hsub hy, abs_nonneg b]

end Scaled

/-- The point of a row of moderate size is written at levels that are nearly within the right-hand
side together. -/
theorem Scaled.exists_rests (h : Scaled a w n b size cols) {rhs : Float}
    (hrhs : value rhs = .ofRat b) {x point : Array Float}
    (hsolved : solveRow rhs cols x = .solved point) :
    ∃ y, Rests cols x point y ∧ Balanced n b size cols y := by
  unfold solveRow at hsolved
  cases hpivot : pivot? cols with
  | none =>
    rw [hpivot] at hsolved
    refine h.exists_rests_of_solveBounded hrhs (fun c hc hinf => ?_) hsolved
    rcases pivot?_cases cols with ⟨p, hp, -⟩ | ⟨-, hall⟩
    · rw [hpivot] at hp
      cases hp
    · exact Bool.eq_false_iff.mp (hall c hc) (low_beq_iff.mpr hinf)
  | some pivot =>
    rw [hpivot] at hsolved
    obtain ⟨hmem, hlow, -⟩ := pivot_spec h.measured hpivot
    unfold solvePriced at hsolved
    dsimp only at hsolved
    split at hsolved
    · cases hsolved
    rename_i hfloor
    obtain ⟨y, hy⟩ := h.exists_leveled_others hpivot hfloor
    obtain ⟨σ, hσ, herror, hle⟩ := h.exists_slack List.filter_sublist hy hrhs
    split at hsolved
    · rename_i hroom
      exact h.exists_rests_of_exceeded hmem hy hσ herror hle hroom hsolved
    · rename_i hroom
      exact h.exists_rests_of_fits hmem hy hσ herror hle hlow hroom hsolved

end

end BranchBound.OneRow
