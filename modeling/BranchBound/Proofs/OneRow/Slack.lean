import BranchBound.Proofs.OneRow.Pivoting
import BranchBound.Proofs.OneRow.Reach

/-!
# Filling up a row of doubles

A fill of doubles comes to activities that take no more than the slack, up to errors of rounding
(`Raised`, `exists_raised`). Each column that is raised adds the error of its room and that of the
slack that is left, so the errors grow with the sizes of the columns and with their number. What is
left of the slack does not fall below zero, however it is rounded.
-/

namespace BranchBound.OneRow

open Double

variable {a w lo : Nat → ℚ}

/-- A column with a lowest activity that is less than the highest one. -/
structure Column.Raisable (a w lo : Nat → ℚ) (c : Column Float) : Prop where
  measured : c.Measured a w
  low : Double.value c.low = .ofRat (lo c.var)
  lt : c.low < c.high

/-- Activities `y` that a fill of doubles comes to, from the lowest ones and with a bound on what is
taken of the slack. -/
structure Raised (s : Float) (lo : Nat → ℚ) (cols : List (Column Float)) (y : Nat → ℚ)
    (total : ℚ) : Prop where
  placed : ∀ cl ∈ fill s cols, cl.1 ∈ cols ∧ cl.1.Settles cl.2 (y cl.1.var)
  unplaced : ∀ j, (∀ cl ∈ fill s cols, cl.1.var ≠ j) → y j = lo j
  ge : lo ≤ y
  total_le : (cols.map fun c => y c.var - lo c.var).sum ≤ total

theorem Column.Raisable.abs_le {c : Column Float} (h : c.Raisable a w lo) :
    |lo c.var| ≤ c.reach w := by
  obtain ⟨y, hy, hmeets⟩ := h.measured.low_cases.resolve_left fun hinf => by
    rw [h.low] at hinf
    cases hinf
  rw [h.low] at hy
  rw [Exact.ofRat.inj hy]
  exact hmeets.abs_le

theorem Column.Measured.reach_pos {c : Column Float} (h : c.Measured a w) : 0 < c.reach w := by
  have hnonneg := h.nonneg
  have hpos := roundoff_pos
  unfold Column.reach
  linarith

/-- The errors of a fill, with a bound on its slack. -/
def fillError (w : Nat → ℚ) (bound : ℚ) (cols : List (Column Float)) : ℚ :=
  roundoff * (cols.map fun c => 2 * c.reach w + bound).sum

section

variable {s : Float} {σ bound : ℚ} {c : Column Float} {rest : List (Column Float)}

theorem fillError_nonneg (hcols : ∀ c ∈ rest, c.Measured a w) (hbound : 0 ≤ bound) :
    0 ≤ fillError w bound rest := by
  refine mul_nonneg roundoff_pos.le (List.sum_nonneg fun q hq => ?_)
  obtain ⟨c, hc, rfl⟩ := List.mem_map.mp hq
  linarith [(hcols c hc).reach_pos]

theorem fillError_cons :
    fillError w bound (c :: rest) =
      roundoff * (2 * c.reach w + bound) + fillError w bound rest := by
  unfold fillError
  rw [List.map_cons, List.sum_cons, mul_add]

/-- Nothing is raised without a slack. -/
theorem raised_of_fill_eq_nil {cols : List (Column Float)} {total : ℚ} (hfill : fill s cols = [])
    (htotal : 0 ≤ total) : Raised s lo cols lo total where
  placed cl hcl := by
    rw [hfill] at hcl
    exact absurd hcl List.not_mem_nil
  unplaced _ _ := rfl
  ge := le_rfl
  total_le := by rwa [sum_map_sub_self]

variable (hs : value s = .ofRat σ) (hpos : 0 < σ) (hbound : σ ≤ bound)
  (hc : c.Raisable a w lo) (hceiling : 4 * (c.reach w + bound) + 1 ≤ ceiling)

include hs hpos hbound hc hceiling

/-- The last column that is raised takes what is left of the slack. -/
theorem raised_of_no_room (hnodup : ((c :: rest).map Column.var).Nodup)
    (hroom : ¬c.high - c.low ≤ s) :
    ∃ y, Raised s lo (c :: rest) y (σ + roundoff * (2 * c.reach w + bound)) := by
  have hlo := hc.abs_le
  have hsum : |lo c.var + σ| ≤ c.reach w + bound := by
    have htriangle := abs_add_le (lo c.var) σ
    rw [abs_of_pos hpos] at htriangle
    linarith
  have hreach := hc.measured.reach_pos
  obtain ⟨η, hη, hnearest, herror⟩ := exists_add hc.low hs (by linarith)
  have hfill : fill s (c :: rest) = [(c, .at (c.low + s))] := by
    unfold fill
    rw [if_neg (by rw [le_iff, hs, value_zero, Exact.ofRat_le]; exact hpos.not_ge)]
    exact if_neg hroom
  refine ⟨Function.update lo c.var η, ?_, ?_, ?_, ?_⟩
  · rw [hfill]
    refine List.forall_mem_singleton.mpr ⟨List.mem_cons_self, ?_⟩
    rw [Function.update_self]
    refine hc.measured.settles_at hη ?_ fun ξ hξ =>
      hc.measured.admits_raised hc.low hs hpos hroom (by linarith) hξ
    have htriangle := abs_sub_abs_le_abs_sub η (lo c.var + σ)
    have hshare : roundoff * |lo c.var + σ| ≤ 1 * |lo c.var + σ| :=
      mul_le_mul_of_nonneg_right (by norm_num [roundoff]) (abs_nonneg _)
    linarith
  · rw [hfill]
    intro j hj
    exact Function.update_of_ne (fun hjc => hj _ List.mem_cons_self hjc.symm) _ _
  · exact le_update_iff.mpr
      ⟨(hnearest.rounds _ (fits_of_value hc.low).1).2 (by linarith), fun _ _ => le_rfl⟩
  · rw [sum_update_cons lo hnodup, sum_map_sub_self]
    have hshare := mul_le_mul_of_nonneg_left hsum roundoff_pos.le
    have hslop := mul_nonneg roundoff_pos.le hreach.le
    linarith [le_abs_self (η - (lo c.var + σ))]

/-- A column whose room fits into the slack is raised all the way, and leaves a slack that is not
negative. -/
theorem exists_room (hroom : c.high - c.low ≤ s) : ∃ hi σ', value c.high = .ofRat hi ∧
    lo c.var ≤ hi ∧ value (s - (c.high - c.low)) = .ofRat σ' ∧ 0 ≤ σ' ∧ σ' ≤ σ ∧
    hi - lo c.var + σ' ≤ σ + roundoff * (2 * c.reach w + bound) := by
  have hzero : Fits 0 := (fits_of_value value_zero).1
  have hlo := hc.abs_le
  rw [le_iff, hs] at hroom
  obtain ⟨hi, hhigh, hmeets⟩ := hc.measured.high_cases.resolve_left fun hinf => by
    have hfaithful := (rounded_sub c.high c.low).toFaithful
    rw [hinf, hc.low] at hfaithful
    rw [hfaithful.value_eq (x := .posInf - .ofRat (lo c.var)) value_posInf (nomatch ·)] at hroom
    exact Exact.not_posInf_le_ofRat _ hroom
  have hlt : lo c.var < hi := by
    have hlt := hc.lt
    rwa [lt_iff, hc.low, hhigh, Exact.ofRat_lt] at hlt
  have hhi := hmeets.abs_le
  have hreach := hc.measured.reach_pos
  have hrange : |hi - lo c.var| ≤ 2 * c.reach w := by
    have htriangle := abs_sub hi (lo c.var)
    linarith
  obtain ⟨ρ, hρ, hnearest, herror⟩ := exists_sub hhigh hc.low (by linarith)
  have hρ0 : 0 ≤ ρ := (hnearest.rounds 0 hzero).2 (by linarith)
  rw [hρ, Exact.ofRat_le] at hroom
  have hleft : |σ - ρ| ≤ bound := by
    rw [abs_of_nonneg (by linarith)]
    linarith
  obtain ⟨σ', hσ', hnearest', herror'⟩ := exists_sub hs hρ (by linarith)
  refine ⟨hi, σ', hhigh, hlt.le, hσ', (hnearest'.rounds 0 hzero).2 (by linarith),
    (hnearest'.rounds σ (fits_of_value hs).1).1 (by linarith), ?_⟩
  have hshare := mul_le_mul_of_nonneg_left hrange roundoff_pos.le
  have hshare' := mul_le_mul_of_nonneg_left hleft roundoff_pos.le
  linarith [neg_abs_le (ρ - (hi - lo c.var)), le_abs_self (σ' - (σ - ρ))]

omit hbound hc hceiling in
/-- What is filled in after a column that is raised all the way. -/
theorem Raised.cons {hi total : ℚ} {y : Nat → ℚ} (hnodup : ((c :: rest).map Column.var).Nodup)
    (hroom : c.high - c.low ≤ s) (hhigh : value c.high = .ofRat hi) (hle : lo c.var ≤ hi)
    (h : Raised (s - (c.high - c.low)) lo rest y total) :
    Raised s lo (c :: rest) (Function.update y c.var hi) (hi - lo c.var + total) := by
  have hfill : fill s (c :: rest) = (c, .high) :: fill (s - (c.high - c.low)) rest := by
    rw [fill, if_neg (by rw [le_iff, hs, value_zero, Exact.ofRat_le]; exact hpos.not_ge)]
    exact if_pos hroom
  refine ⟨?_, ?_, ?_, ?_⟩
  · rw [hfill]
    refine List.forall_mem_cons.mpr ⟨⟨List.mem_cons_self, ?_⟩, fun cl hcl => ?_⟩
    · rw [Function.update_self]
      exact Column.settles_high hhigh
    · obtain ⟨hmem, hsettles⟩ := h.placed cl hcl
      rw [update_of_mem_tail y hi hnodup hmem]
      exact ⟨List.mem_cons_of_mem c hmem, hsettles⟩
  · rw [hfill]
    intro j hj
    rw [Function.update_of_ne fun hjc => hj _ List.mem_cons_self hjc.symm]
    exact h.unplaced j fun cl hcl => hj cl (List.mem_cons_of_mem _ hcl)
  · exact le_update_iff.mpr ⟨hle, fun j _ => h.ge j⟩
  · rw [sum_update_cons y hnodup]
    linarith [h.total_le]

end

/-- A fill of doubles takes no more than the slack, up to the errors of the columns. -/
theorem exists_raised {bound : ℚ} (hbound0 : 0 ≤ bound) {cols : List (Column Float)}
    (hcols : ∀ c ∈ cols, c.Raisable a w lo) (hnodup : (cols.map Column.var).Nodup)
    (hceiling : ∀ c ∈ cols, 4 * (c.reach w + bound) + 1 ≤ ceiling) {s : Float} {σ : ℚ}
    (hs : value s = .ofRat σ) (hbound : σ ≤ bound) :
    ∃ y, Raised s lo cols y (max σ 0 + fillError w bound cols) := by
  induction cols generalizing s σ with
  | nil =>
    refine ⟨lo, raised_of_fill_eq_nil rfl ?_⟩
    exact add_nonneg (le_max_right _ _)
      (fillError_nonneg (fun e he => (hcols e he).measured) hbound0)
  | cons c rest ih =>
    have hc := hcols c List.mem_cons_self
    have hrest : ∀ e ∈ rest, e.Raisable a w lo := fun e he => hcols e (List.mem_cons_of_mem c he)
    have herrors := fillError_nonneg (fun e he => (hrest e he).measured) hbound0
    rcases le_or_gt σ 0 with hnone | hpos
    · refine ⟨lo, raised_of_fill_eq_nil ?_ ?_⟩
      · unfold fill
        exact if_pos ((le_iff _ _).mpr (by rw [hs, value_zero, Exact.ofRat_le]; exact hnone))
      · exact add_nonneg (le_max_right _ _)
          (fillError_nonneg (fun e he => (hcols e he).measured) hbound0)
    · rw [max_eq_left hpos.le, fillError_cons]
      have hceilingc := hceiling c List.mem_cons_self
      by_cases hroom : c.high - c.low ≤ s
      · obtain ⟨hi, σ', hhigh, hle, hs', h0, hσ', htotal⟩ :=
          exists_room hs hpos hbound hc hceilingc hroom
        obtain ⟨y, hy⟩ := ih hrest (List.nodup_cons.mp hnodup).2
          (fun e he => hceiling e (List.mem_cons_of_mem c he)) hs' (hσ'.trans hbound)
        rw [max_eq_left h0] at hy
        have hraised := hy.cons hs hpos hnodup hroom hhigh hle
        exact ⟨_, { hraised with total_le := hraised.total_le.trans (by linarith) }⟩
      · obtain ⟨y, hy⟩ := raised_of_no_room hs hpos hbound hc hceilingc hnodup hroom
        exact ⟨y, { hy with total_le := hy.total_le.trans (by linarith) }⟩

end BranchBound.OneRow
