import BranchBound.Proofs.OneRow.Slack
import BranchBound.Proofs.Tightening

/-!
# Settling a row of doubles

The columns of a row of doubles settle at levels: at the price of a pivot (`exists_settles_priced`)
or at their lowest activities. In a row of moderate size (`Scaled`) the levels leave a slack that is
off by a few errors of rounding (`Scaled.exists_slack`), and what is raised from them takes no more
than the slack, up to a few errors (`Scaled.exists_raised`). The errors are counted in units of
`slop`: one rounding of a number of the size of the row for each variable.
-/

namespace BranchBound.OneRow

open Double

/-! ## The pivot -/

section

variable {a w : Nat → ℚ} {c pivot : Column Float} {cols : List (Column Float)}

theorem low_beq_iff : (c.low == -Scalar.inf) = true ↔ Double.value c.low = .negInf := by
  rw [beq_iff, value_negInf]
  exact ⟨fun h => h.1, fun h => ⟨h, by rw [h]; exact (nomatch ·)⟩⟩

/-- What comes before the pivot gains no more, and what does not gains no less. -/
theorem Column.Measured.gain_le_of_pivotsBefore {d : Column Float} (hc : c.Measured a w)
    (h : c.pivotsBefore d = true) : Double.value c.gain ≤ Double.value d.gain := by
  unfold Column.pivotsBefore at h
  rw [Bool.or_eq_true, decide_eq_true_iff, Bool.and_eq_true, Bool.and_eq_true] at h
  rcases h with hlt | ⟨⟨hequal, -⟩, -⟩
  · exact Exact.le_of_lt ((lt_iff _ _).mp hlt)
  · rw [← ((beq_iff _ _).mp hequal).1]
    exact Exact.le_refl_of_valid hc.valid_gain

theorem Column.Measured.le_gain_of_not_pivotsBefore {d : Column Float} (hc : c.Measured a w)
    (hd : d.Measured a w) (h : ¬c.pivotsBefore d = true) :
    Double.value d.gain ≤ Double.value c.gain := by
  unfold Column.pivotsBefore at h
  rw [Bool.or_eq_true, decide_eq_true_iff, not_or, lt_iff] at h
  exact Exact.le_of_not_lt hd.valid_gain hc.valid_gain h.1

/-- The pivot gains least of the columns without a lowest activity. -/
theorem pivot_spec (hcols : ∀ c ∈ cols, c.Measured a w) (hpivot : pivot? cols = some pivot) :
    pivot ∈ cols ∧ Double.value pivot.low = .negInf ∧
      ∀ c ∈ cols, Double.value c.low = .negInf → Double.value pivot.gain ≤ Double.value c.gain := by
  induction cols using List.reverseRecOn generalizing pivot with
  | nil => cases hpivot
  | append_singleton rest c ih =>
    obtain ⟨hrest, hlast⟩ := List.forall_mem_append.mp hcols
    have hc := hlast c (List.mem_singleton_self c)
    have hmem : c ∈ rest ++ [c] := List.mem_append_right _ (List.mem_singleton_self c)
    rw [pivot?_append_singleton] at hpivot
    simp only [List.forall_mem_append, List.forall_mem_singleton]
    by_cases hlow : (c.low == -Scalar.inf) = true
    · rw [if_pos hlow] at hpivot
      rw [low_beq_iff] at hlow
      rcases pivot?_cases rest with ⟨p, hp, -⟩ | ⟨hnone, hall⟩
      · obtain ⟨hpmem, hplow, hleast⟩ := ih hrest hp
        rw [hp, Option.elim_some] at hpivot
        split at hpivot
        · rename_i hswap
          obtain rfl := Option.some.inj hpivot
          have hle := hc.gain_le_of_pivotsBefore hswap
          exact ⟨hmem, hlow, fun e he hinf => Exact.le_trans hle (hleast e he hinf),
            fun _ => Exact.le_refl_of_valid hc.valid_gain⟩
        · rename_i hkeep
          obtain rfl := Option.some.inj hpivot
          exact ⟨List.mem_append_left _ hpmem, hplow, hleast,
            fun _ => hc.le_gain_of_not_pivotsBefore (hrest p hpmem) hkeep⟩
      · rw [hnone, Option.elim_none] at hpivot
        obtain rfl := Option.some.inj hpivot
        refine ⟨hmem, hlow, fun e he hinf => ?_, fun _ => Exact.le_refl_of_valid hc.valid_gain⟩
        exact absurd (low_beq_iff.mpr hinf) (Bool.eq_false_iff.mp (hall e he))
    · rw [if_neg hlow] at hpivot
      obtain ⟨hpmem, hplow, hleast⟩ := ih hrest hpivot
      exact ⟨List.mem_append_left _ hpmem, hplow, hleast,
        fun hinf => absurd (low_beq_iff.mpr hinf) hlow⟩

/-- No column without a highest activity gains more than the floor. -/
theorem floorPrice_valid (hcols : ∀ c ∈ cols, c.Measured a w) :
    value (floorPrice cols) ≠ .nan ∧
      ∀ c ∈ cols, value c.high = .posInf → value c.gain ≤ value (floorPrice cols) := by
  induction cols using List.reverseRecOn with
  | nil =>
    refine ⟨?_, fun _ h => absurd h List.not_mem_nil⟩
    rw [show floorPrice ([] : List (Column Float)) = 0.0 from rfl, value_zero]
    exact (nomatch ·)
  | append_singleton rest c ih =>
    obtain ⟨hrest, hlast⟩ := List.forall_mem_append.mp hcols
    have hc := (hlast c (List.mem_singleton_self c)).valid_gain
    obtain ⟨hvalid, hfloor⟩ := ih hrest
    have hstep : floorPrice (rest ++ [c]) =
        if c.high == Scalar.inf then Scalar.maxNum (floorPrice rest) c.gain
        else floorPrice rest := List.foldl_append
    rw [hstep, List.forall_mem_append, List.forall_mem_singleton]
    by_cases hhigh : (c.high == Scalar.inf) = true
    · have hmax : value (Scalar.maxNum (floorPrice rest) c.gain) =
          Scalar.maxNum (value (floorPrice rest)) (value c.gain) :=
        Lawful.value_maxNum (floorPrice rest) c.gain
      have hmaxValid : Scalar.maxNum (value (floorPrice rest)) (value c.gain) ≠ .nan := by
        rcases Exact.maxNum_cases (value (floorPrice rest)) (value c.gain) with h | h
        · rwa [h]
        · rwa [h]
      have hle := (Exact.maxNum_le_iff hvalid hc).mp (Exact.le_refl_of_valid hmaxValid)
      rw [if_pos hhigh, hmax]
      exact ⟨hmaxValid, fun e he hinf => Exact.le_trans (hfloor e he hinf) hle.1, fun _ => hle.2⟩
    · rw [if_neg hhigh]
      refine ⟨hvalid, hfloor, fun hinf => absurd ?_ hhigh⟩
      rw [beq_iff, hinf]
      exact ⟨value_posInf.symm, (nomatch ·)⟩

/-- Under the price of the pivot a column is high, or at zero if nothing binds it, or low. It is
high only if it gains more or has a highest activity, and low only if it has a lowest one. -/
theorem Column.Measured.priced_cases (h : c.Measured a w) {price : Float}
    (hprice : Double.value price ≠ .nan)
    (hleast : Double.value c.low = .negInf → Double.value price ≤ Double.value c.gain) :
    (c.priced price = .high ∧
      (Double.value price < Double.value c.gain ∨ Scalar.isFinite c.high = true)) ∨
    (c.priced price = .at 0.0 ∧ Double.value c.low = .negInf ∧ Double.value c.high = .posInf) ∨
    (c.priced price = .low ∧ Double.value c.low ≠ .negInf) := by
  unfold Column.priced
  split
  · rename_i hlt
    exact Or.inl ⟨rfl, Or.inl ((lt_iff _ _).mp hlt)⟩
  · rename_i hnot
    split
    · rename_i hequal
      split
      · rename_i hfinite
        exact Or.inl ⟨rfl, Or.inr hfinite⟩
      · rename_i hfinite
        refine Or.inr (Or.inl ⟨rfl, h.low_cases.resolve_right ?_, h.high_cases.resolve_right ?_⟩)
        · rintro ⟨lo, hlo, -⟩
          rw [isInfinite_eq, hlo, Exact.isInfinite_ofRat, Bool.and_false] at hequal
          cases hequal
        · rintro ⟨hi, hhi, -⟩
          exact hfinite (isFinite_iff.mpr ⟨hi, hhi⟩)
    · rename_i hequal
      refine Or.inr (Or.inr ⟨rfl, fun hinf => hequal ?_⟩)
      rw [lt_iff] at hnot
      have hge := Exact.le_of_not_lt h.valid_gain hprice hnot
      rw [Bool.and_eq_true, beq_iff]
      refine ⟨⟨Exact.le_antisymm hge (hleast hinf), h.valid_gain⟩, ?_⟩
      rw [isInfinite_eq, hinf]
      rfl

/-! ## Levels at the price of the pivot -/

/-- At a price that no column without an end beats, every column settles at its level. -/
theorem Column.Measured.exists_settles_priced (h : c.Measured a w) {price : Float}
    (hprice : Double.value price ≠ .nan)
    (hleast : Double.value c.low = .negInf → Double.value price ≤ Double.value c.gain)
    (hfloor : Double.value c.high = .posInf → Double.value c.gain ≤ Double.value price) :
    ∃ y, c.Settles (c.priced price) y ∧ |y| ≤ c.reach w := by
  rcases h.priced_cases hprice hleast with ⟨hlevel, hhigh⟩ | ⟨hlevel, hlow, hhigh⟩ | ⟨hlevel, hlow⟩
  · obtain ⟨hi, hhi, hmeets⟩ := h.high_cases.resolve_left fun hinf => by
      rcases hhigh with hlt | hfinite
      · exact Exact.not_lt_of_le (hfloor hinf) hlt
      · obtain ⟨hi, hhi⟩ := isFinite_iff.mp hfinite
        cases hinf.symm.trans hhi
    rw [hlevel]
    exact ⟨hi, settles_high hhi, hmeets.abs_le⟩
  · rw [hlevel]
    refine ⟨0, h.settles_at value_zero ?_
      fun ξ hξ => Or.inr (Or.inr (h.between value_zero hξ ?_ ?_)), ?_⟩
    · rw [abs_zero, mul_zero, zero_add]
      exact one_le_ceiling
    · rw [lt_iff, value_zero, hlow]
      exact Exact.negInf_lt_ofRat 0
    · rw [lt_iff, value_zero, hhigh]
      exact Exact.ofRat_lt_posInf 0
    · rw [abs_zero]
      exact h.reach_pos.le
  · obtain ⟨lo, hlo, hmeets⟩ := h.low_cases.resolve_left hlow
    rw [hlevel]
    exact ⟨lo, settles_low hlo, hmeets.abs_le⟩

end

/-! ## Rows of moderate size -/

/-- The columns of a row, `n` at most, that all have measures. Together with the right-hand side
they are no greater than a size, and the errors of so many operations on numbers of that size are
small beside the right-hand side. -/
structure Scaled (a w : Nat → ℚ) (n : ℕ) (b size : ℚ) (cols : List (Column Float)) : Prop where
  measured : ∀ c ∈ cols, c.Measured a w
  nodup : (cols.map Column.var).Nodup
  length_le : cols.length ≤ n
  size_le : 1 + |b| + (cols.map fun c => w c.var).sum ≤ size
  le_ceiling : 64 * size ≤ ceiling
  fine : (n + 1) * size ≤ 2 ^ 25 * (1 + |b|)

/-- An error of rounding for each variable, and one more. -/
def slop (n : ℕ) (size : ℚ) : ℚ := roundoff * ((n + 1) * size)

/-- Columns settle at levels, with activities that are no greater than their reach. -/
structure Leveled (w : Nat → ℚ) (level : Column Float → Level Float) (cols : List (Column Float))
    (y : Nat → ℚ) : Prop where
  settles : ∀ c ∈ cols, c.Settles (level c) (y c.var)
  abs_le : ∀ c ∈ cols, |y c.var| ≤ c.reach w

section

variable {a w : Nat → ℚ} {n : ℕ} {b size : ℚ} {cols rest : List (Column Float)}

/-- Every column settles at its level with an activity of its own. -/
theorem exists_leveled {level : Column Float → Level Float} (hnodup : (cols.map Column.var).Nodup)
    (h : ∀ c ∈ cols, ∃ q, c.Settles (level c) q ∧ |q| ≤ c.reach w) : ∃ y, Leveled w level cols y := by
  obtain ⟨y, hy⟩ := exists_numbers_of_nodup
    (P := fun c q => c.Settles (level c) q ∧ |q| ≤ c.reach w) hnodup h
  exact ⟨y, fun c hc => (hy c hc).1, fun c hc => (hy c hc).2⟩

theorem sum_le_of_sublist {f g : Column Float → ℚ} (hsub : rest.Sublist cols)
    (hle : ∀ c ∈ rest, f c ≤ g c) (hnonneg : ∀ c ∈ cols, 0 ≤ g c) :
    (rest.map f).sum ≤ (cols.map g).sum := by
  refine (List.sum_le_sum hle).trans ((hsub.map g).sum_le_sum fun q hq => ?_)
  obtain ⟨c, hc, rfl⟩ := List.mem_map.mp hq
  exact hnonneg c hc

namespace Scaled

variable (h : Scaled a w n b size cols)

include h

theorem one_add_abs_le : 1 + |b| ≤ size := by
  have hsum : 0 ≤ (cols.map fun c => w c.var).sum := List.sum_nonneg fun q hq => by
    obtain ⟨c, hc, rfl⟩ := List.mem_map.mp hq
    exact (h.measured c hc).nonneg
  linarith [h.size_le]

theorem one_le : 1 ≤ size := by linarith [h.one_add_abs_le, abs_nonneg b]

theorem length_add_one_le : (n : ℚ) + 1 ≤ 2 ^ 25 := by
  have hpos : 0 < size := by linarith [h.one_le]
  refine le_of_mul_le_mul_right ?_ hpos
  linarith [h.fine, h.one_add_abs_le]

theorem count_mul_le {k : ℕ} (hk : k ≤ n) : (k : ℚ) * roundoff ≤ 1 / 2 ^ 28 := by
  have hle : (k : ℚ) ≤ 2 ^ 25 := by
    have hcast : (k : ℚ) ≤ n := by exact_mod_cast hk
    linarith [h.length_add_one_le]
  refine (mul_le_mul_of_nonneg_right hle roundoff_pos.le).trans (by norm_num [roundoff])

theorem slop_le : slop n size ≤ (1 + |b|) / 2 ^ 28 := by
  refine (mul_le_mul_of_nonneg_left h.fine roundoff_pos.le).trans (le_of_eq ?_)
  unfold roundoff
  ring

/-- A share of a number of the size is one error. -/
theorem roundoff_mul_le : roundoff * size ≤ slop n size := by
  refine mul_le_mul_of_nonneg_left (le_mul_of_one_le_left (by linarith [h.one_le]) ?_)
    roundoff_pos.le
  linarith [(Nat.cast_nonneg n : (0 : ℚ) ≤ n)]

/-- Shares of numbers of the size, one for each variable at most, are the errors. -/
theorem count_mul_size_le {k : ℕ} (hk : k ≤ n) : k * roundoff * size ≤ slop n size := by
  have hcast : (k : ℚ) ≤ n := by exact_mod_cast hk
  have hpos := mul_nonneg roundoff_pos.le (by linarith [h.one_le] : 0 ≤ size)
  have hmul := mul_le_mul_of_nonneg_left hcast hpos
  unfold slop
  linarith

theorem slop_nonneg : 0 ≤ slop n size :=
  (mul_nonneg roundoff_pos.le (by linarith [h.one_le])).trans h.roundoff_mul_le

theorem slop_le_size : 1000 * slop n size ≤ size := by
  linarith [h.slop_le, h.one_add_abs_le, abs_nonneg b]

theorem sum_reach_le : |b| + (cols.map fun c => c.reach w).sum + 1 ≤ 2 * size := by
  have hsum : (cols.map fun c => c.reach w).sum =
      2 * (cols.map fun c => w c.var).sum + cols.length * roundoff := by
    unfold Column.reach
    rw [List.sum_map_add, List.sum_map_mul_left, List.map_const', List.sum_replicate, nsmul_eq_mul]
  have hlength := h.count_mul_le h.length_le
  rw [hsum]
  linarith [h.size_le, abs_nonneg b]

theorem reach_le {c : Column Float} (hc : c ∈ cols) : c.reach w ≤ 2 * size := by
  have hmem := List.single_le_sum (l := cols.map fun c => c.reach w) (fun q hq => by
    obtain ⟨e, he, rfl⟩ := List.mem_map.mp hq
    exact (h.measured e he).reach_pos.le) _ (List.mem_map_of_mem hc)
  linarith [h.sum_reach_le, abs_nonneg b]

variable {level : Column Float → Level Float} {y : Nat → ℚ} (hsub : rest.Sublist cols)
  (hy : Leveled w level rest y)

include hsub hy

theorem sum_abs_le : |b| + (rest.map fun c => |y c.var|).sum + 1 ≤ 2 * size := by
  have hle := sum_le_of_sublist hsub hy.abs_le fun c hc => (h.measured c hc).reach_pos.le
  linarith [h.sum_reach_le]

/-- What levels leave of the right-hand side. -/
theorem exists_slack {rhs : Float} (hrhs : value rhs = .ofRat b) :
    ∃ σ, value (rhs - rowActivity (rest.map fun c => (c, level c))) = .ofRat σ ∧
      |σ - (b - (rest.map fun c => y c.var).sum)| ≤ 7 * slop n size ∧ |σ| ≤ 4 * size := by
  have hlength : rest.length ≤ n := hsub.length_le.trans h.length_le
  have hsum := h.sum_abs_le hsub hy
  have hsize := h.slop_le_size
  have hb := abs_nonneg b
  have hone := h.one_le
  have hceiling := h.le_ceiling
  have hactivity : ∀ c ∈ rest, value (c.activity (level c)) = .ofRat (y c.var) :=
    fun c hc => (hy.settles c hc).activity
  have hle : (rest.map fun c => |y c.var|).sum ≤ 2 * size := by linarith
  obtain ⟨q, hq, herror⟩ := exists_sum hactivity hle
    ((h.count_mul_le hlength).trans (by norm_num)) (by linarith)
  -- as many errors as there are summands
  have hcount := h.count_mul_size_le hlength
  obtain ⟨hlo, hhi⟩ := abs_le.mp herror
  obtain ⟨hlo', hhi'⟩ := abs_le.mp (abs_sum_map_le rest fun c => y c.var)
  have hleft : |b - q| ≤ 3 * size := by
    have hbounds := abs_le.mp (le_refl |b|)
    exact abs_le.mpr ⟨by linarith, by linarith⟩
  have hrow : rowActivity (rest.map fun c => (c, level c)) =
      Scalar.sum (rest.map fun c => c.activity (level c)).toArray := by
    unfold rowActivity
    rw [List.map_map]
    rfl
  rw [← hrow] at hq
  obtain ⟨σ, hσ, -, herror'⟩ := exists_sub hrhs hq (by linarith)
  have hshare := mul_le_mul_of_nonneg_left hleft roundoff_pos.le
  have hslop := h.roundoff_mul_le
  obtain ⟨hlo'', hhi''⟩ := abs_le.mp (herror'.trans hshare)
  obtain ⟨hlo3, hhi3⟩ := abs_le.mp hleft
  refine ⟨σ, hσ, abs_le.mpr ⟨by linarith, by linarith⟩, abs_le.mpr ⟨by linarith, by linarith⟩⟩

omit hy in
/-- The errors of raising some of the columns of the row. -/
theorem fillError_risers_le :
    fillError w (7 * size) (risers (rest.map fun c => (c, level c))) ≤ 7 * slop n size := by
  have hsize : 0 ≤ 7 * size := by linarith [h.one_le]
  have hperm : (risers (rest.map fun c => (c, level c))).Perm
      (((rest.map fun c => (c, level c)).filter fun cl => cl.1.canRise cl.2).map Prod.fst) :=
    List.mergeSort_perm _ _
  have hsublist : (((rest.map fun c => (c, level c)).filter fun cl => cl.1.canRise cl.2).map
      Prod.fst).Sublist cols := by
    refine (List.filter_sublist.map Prod.fst).trans ?_
    rwa [List.map_map, show Prod.fst ∘ (fun c => (c, level c)) = id from rfl, List.map_id]
  have hsum : (cols.map fun c => 2 * c.reach w + 7 * size).sum =
      2 * (cols.map fun c => c.reach w).sum + cols.length * (7 * size) := by
    rw [List.sum_map_add, List.sum_map_mul_left, List.map_const', List.sum_replicate, nsmul_eq_mul]
  have hcount : 2 * (cols.map fun c => c.reach w).sum + cols.length * (7 * size) ≤
      7 * ((n + 1) * size) := by
    have hcast : (cols.length : ℚ) ≤ n := by exact_mod_cast h.length_le
    have hmul := mul_le_mul_of_nonneg_right hcast hsize
    linarith [h.sum_reach_le, abs_nonneg b]
  calc fillError w (7 * size) (risers (rest.map fun c => (c, level c)))
      ≤ roundoff * (cols.map fun c => 2 * c.reach w + 7 * size).sum := by
        unfold fillError
        rw [(hperm.map _).sum_eq]
        refine mul_le_mul_of_nonneg_left
          (sum_le_of_sublist hsublist (fun _ _ => le_rfl) fun c hc => ?_) roundoff_pos.le
        linarith [(h.measured c hc).reach_pos]
    _ ≤ roundoff * (7 * ((n + 1) * size)) := by
        rw [hsum]
        exact mul_le_mul_of_nonneg_left hcount roundoff_pos.le
    _ = 7 * slop n size := by
        unfold slop
        ring

/-- What is raised from levels takes no more than the slack, up to some errors. -/
theorem exists_raised {s : Float} {σ : ℚ} (hs : value s = .ofRat σ) (hσ : σ ≤ 7 * size) :
    ∃ z, Raised s y (risers (rest.map fun c => (c, level c))) z (max σ 0 + 7 * slop n size) := by
  have hone := h.one_le
  have hraisable : ∀ c ∈ risers (rest.map fun c => (c, level c)), c ∈ rest ∧ c.Raisable a w y := by
    intro c hc
    obtain ⟨hc, hrise⟩ := mem_risers_map.mp hc
    have hlow := eq_low_of_canRise hrise
    have hactivity := (hy.settles c hc).activity
    rw [hlow] at hactivity hrise
    exact ⟨hc, h.measured c (hsub.subset hc), hactivity,
      of_decide_eq_true (Bool.and_eq_true_iff.mp hrise).2⟩
  have hnodup : ((rest.map fun c => (c, level c)).map fun cl => cl.1.var).Nodup := by
    rw [List.map_map]
    exact h.nodup.sublist (hsub.map Column.var)
  obtain ⟨z, hz⟩ := OneRow.exists_raised (by linarith : 0 ≤ 7 * size) (fun c hc => (hraisable c hc).2)
    (nodup_risers hnodup) (fun c hc => by
      linarith [h.reach_le (hsub.subset (hraisable c hc).1), h.le_ceiling]) hs hσ
  refine ⟨z, { hz with total_le := hz.total_le.trans ?_ }⟩
  exact add_le_add_right (h.fillError_risers_le hsub) _

end Scaled

/-- What is raised comes on top of the levels. -/
theorem Raised.sums_le {level : Column Float → Level Float} {y z : Nat → ℚ} {s : Float} {total : ℚ}
    (hnodup : (rest.map Column.var).Nodup)
    (hz : Raised s y (risers (rest.map fun c => (c, level c))) z total) :
    (rest.map fun c => z c.var).sum ≤ (rest.map fun c => y c.var).sum + total ∧
      (rest.map fun c => |z c.var|).sum ≤ (rest.map fun c => |y c.var|).sum + total := by
  have hvars : ((rest.map fun c => (c, level c)).map fun cl => cl.1.var).Nodup := by
    rwa [List.map_map]
  have hraised := hz.total_le
  rw [sum_risers hvars fun j hj => hz.unplaced j fun cl hcl => hj cl.1 (hz.placed cl hcl).1,
    List.map_map] at hraised
  have hdiff : (rest.map fun c => z c.var - y c.var).sum ≤ total := hraised
  constructor
  · refine le_trans (le_of_eq ?_) (add_le_add_right hdiff _)
    rw [← List.sum_map_add]
    simp only [add_sub_cancel]
  · refine le_trans ?_ (add_le_add_right hdiff _)
    rw [← List.sum_map_add]
    refine List.sum_le_sum fun c _ => ?_
    have htriangle := abs_add_le (y c.var) (z c.var - y c.var)
    rwa [add_sub_cancel, abs_of_nonneg (sub_nonneg.mpr (hz.ge c.var))] at htriangle

end

end BranchBound.OneRow
