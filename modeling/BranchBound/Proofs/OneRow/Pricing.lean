import BranchBound.Proofs.OneRow.Optimum

/-!
# Pricing a row

What the relaxation makes of columns of which some have no lowest activity, if each of them has an
activity in its range at all (`Column.Ranged`). A pivot sets the price. If some column gains more
without end, or giving up activity gains, nothing is placed. Otherwise every column is left at a
level that has an activity in its range (`Column.Sits`, `solvePriced_cases`): what could run off is
kept by the price, which is the least among the columns without a lowest activity
(`gain_pivot_le`) and at least that of every column without a highest one (`floorPrice_spec`).
-/

namespace BranchBound.OneRow

open Exact

/-! ## Levels in a range -/

/-- A column of the row with given cost and coefficient, and with an activity in its range. -/
structure Column.Ranged (d a z : Nat → ℚ) (c : Column Exact) : Prop where
  cost : c.cost = .ofRat (d c.var)
  coef : c.coef = .ofRat (a c.var)
  ne_zero : a c.var ≠ 0
  within : c.Within (z c.var)

/-- Whether a level is an activity in the range of a column. -/
def Column.Sits (c : Column Exact) (level : Level Exact) : Prop :=
  ∃ y : ℚ, c.activity level = .ofRat y ∧ c.Within y

namespace Column.Ranged

variable {d a z : Nat → ℚ} {c : Column Exact}

theorem gain_eq (h : c.Ranged d a z) : c.gain = .ofRat (-d c.var / a c.var) :=
  gain_of_rational h.cost h.coef h.ne_zero

theorem low_cases (h : c.Ranged d a z) : (∃ lo, c.low = .ofRat lo) ∨ c.low = .negInf := by
  have hle := h.within.1
  cases hlow : c.low with
  | ofRat lo => exact Or.inl ⟨lo, rfl⟩
  | negInf => exact Or.inr rfl
  | posInf =>
    rw [hlow] at hle
    exact absurd hle (not_posInf_le_ofRat _)
  | nan =>
    rw [hlow] at hle
    exact absurd hle (not_nan_le _)

theorem high_cases (h : c.Ranged d a z) : (∃ hi, c.high = .ofRat hi) ∨ c.high = .posInf := by
  have hle := h.within.2
  cases hhigh : c.high with
  | ofRat hi => exact Or.inl ⟨hi, rfl⟩
  | posInf => exact Or.inr rfl
  | negInf =>
    rw [hhigh] at hle
    exact absurd hle (not_ofRat_le_negInf _)
  | nan =>
    rw [hhigh] at hle
    exact absurd hle (not_le_nan _)

/-- With a lowest activity it is a column of the row as a fill takes them. -/
theorem inRow (h : c.Ranged d a z) {lo : ℚ} (hlow : c.low = .ofRat lo) :
    c.InRow d a fun _ => lo :=
  ⟨h.cost, h.coef, h.ne_zero, hlow, Exact.le_trans h.within.1 h.within.2⟩

theorem sits_low (h : c.Ranged d a z) (hlow : c.low ≠ .negInf) : c.Sits .low := by
  obtain ⟨lo, hlo⟩ := h.low_cases.resolve_right hlow
  have hle := Exact.le_trans h.within.1 h.within.2
  refine ⟨lo, hlo, ?_, ?_⟩
  · rw [hlo]
    exact le_refl_of_valid (by simp)
  · rwa [hlo] at hle

theorem sits_high (h : c.Ranged d a z) (hhigh : c.high ≠ .posInf) : c.Sits .high := by
  obtain ⟨hi, hhi⟩ := h.high_cases.resolve_right hhigh
  have hle := Exact.le_trans h.within.1 h.within.2
  refine ⟨hi, hhi, ?_, ?_⟩
  · rwa [hhi] at hle
  · rw [hhi]
    exact le_refl_of_valid (by simp)

/-- A price keeps a column in its range if it is no less than what the column gains without end, and
no more than what the column would gain back without end. -/
theorem sits_priced (h : c.Ranged d a z) {price : ℚ}
    (hhigh : c.high = .posInf → -d c.var / a c.var ≤ price)
    (hlow : c.low = .negInf → price ≤ -d c.var / a c.var) : c.Sits (c.priced (.ofRat price)) := by
  unfold Column.priced
  rw [h.gain_eq, beq_ofRat]
  split
  · rename_i hlt
    rw [ofRat_lt] at hlt
    exact h.sits_high fun hinf => absurd hlt (not_lt.mpr (hhigh hinf))
  · rename_i hnot
    rw [ofRat_lt, not_lt] at hnot
    split
    · rename_i hequal
      rw [Bool.and_eq_true] at hequal
      split
      · rename_i hfinite
        refine h.sits_high fun hinf => ?_
        rw [hinf] at hfinite
        cases hfinite
      · rename_i hfinite
        -- nothing binds the column
        refine ⟨0, zero_eq, ?_, ?_⟩
        · rcases h.low_cases with ⟨lo, hlo⟩ | hinf
          · rw [hlo] at hequal
            cases hequal.2
          · rw [hinf]
            exact negInf_le_ofRat 0
        · rcases h.high_cases with ⟨hi, hhi⟩ | hinf
          · rw [hhi] at hfinite
            exact absurd rfl hfinite
          · rw [hinf]
            exact ofRat_le_posInf 0
    · rename_i hequal
      refine h.sits_low fun hinf => hequal ?_
      rw [hinf, Bool.and_eq_true, decide_eq_true_iff]
      exact ⟨le_antisymm hnot (hlow hinf), rfl⟩

end Column.Ranged

/-- What is filled in with a rational slack are activities in their ranges. -/
theorem sits_of_mem_fill {d a z : Nat → ℚ} {cols : List (Column Exact)}
    (hcols : ∀ c ∈ cols, c.Ranged d a z ∧ c.low ≠ .negInf) {slack : ℚ}
    {cl : Column Exact × Level Exact} (hcl : cl ∈ fill (.ofRat slack) cols) : cl.1.Sits cl.2 := by
  induction cols generalizing slack with
  | nil => cases hcl
  | cons c rest ih =>
    obtain ⟨hranged, hlow⟩ := hcols c List.mem_cons_self
    obtain ⟨lo, hlo⟩ := hranged.low_cases.resolve_right hlow
    have hc := hranged.inRow hlo
    rw [fill] at hcl
    split at hcl
    · cases hcl
    · rename_i hslack
      rw [zero_eq, ofRat_le, not_le] at hslack
      dsimp only at hcl
      split at hcl
      · rename_i hroom
        obtain ⟨hi, hhi, -⟩ := hc.room_le_iff.mp hroom
        rcases List.mem_cons.mp hcl with rfl | hcl
        · exact ⟨hi, hhi, hc.within_high hhi⟩
        · rw [hhi, hlo, ofRat_sub, ofRat_sub] at hcl
          exact ih (fun e he => hcols e (List.mem_cons_of_mem c he)) hcl
      · rename_i hroom
        rw [List.mem_singleton.mp hcl]
        refine ⟨lo + slack, ?_, hc.within_of_no_room hslack.le hroom⟩
        show c.low + .ofRat slack = _
        rw [hlo, ofRat_add]

theorem eq_low_of_canRise {α : Type} [Scalar α] {c : Column α} {level : Level α}
    (h : c.canRise level = true) : level = .low := by
  cases level with
  | low => rfl
  | high | «at» => cases h

/-- Levels with rational activities have a rational activity together. -/
theorem exists_rowActivity {levels : List (Column Exact × Level Exact)}
    (h : ∀ cl ∈ levels, ∃ y : ℚ, cl.1.activity cl.2 = .ofRat y) :
    ∃ q : ℚ, rowActivity levels = .ofRat q := by
  choose! y hy using h
  refine ⟨(levels.map y).sum, ?_⟩
  unfold rowActivity
  rw [← sum_map]
  congr 2
  exact List.map_congr_left hy

/-! ## The price -/

section

variable {d a z : Nat → ℚ} {cols : List (Column Exact)} {pivot : Column Exact}

theorem beq_posInf_iff {v : Exact} : (v == Scalar.inf) = true ↔ v = .posInf := by
  cases v <;> simp [BEq.beq, Exact.beq, Scalar.inf]

theorem beq_negInf_iff {v : Exact} : (v == -Scalar.inf) = true ↔ v = .negInf := by
  cases v <;> simp [BEq.beq, Exact.beq, Scalar.inf]

/-- The floor is the greatest gain of a column that has no highest activity, and zero at least. -/
theorem floorPrice_spec (hcols : ∀ c ∈ cols, c.Ranged d a z) :
    ∃ price : ℚ, floorPrice cols = .ofRat price ∧ 0 ≤ price ∧
      (∀ c ∈ cols, c.high = .posInf → -d c.var / a c.var ≤ price) ∧
      (price = 0 ∨ ∃ c ∈ cols, c.high = .posInf ∧ price = -d c.var / a c.var) := by
  induction cols using List.reverseRecOn with
  | nil => exact ⟨0, zero_eq, le_rfl, fun _ h => absurd h List.not_mem_nil, Or.inl rfl⟩
  | append_singleton rest c ih =>
    obtain ⟨price, hprice, hnonneg, hfloor, hattained⟩ :=
      ih fun e he => hcols e (List.mem_append_left _ he)
    have hc := hcols c (List.mem_append_right _ (List.mem_singleton_self c))
    have hlast : floorPrice (rest ++ [c]) =
        if c.high == Scalar.inf then Scalar.maxNum (floorPrice rest) c.gain
        else floorPrice rest := List.foldl_append
    have hmem : ∀ {e : Column Exact} {price : ℚ}, e.high = .posInf ∧ price = -d e.var / a e.var →
        e ∈ rest → ∃ e ∈ rest ++ [c], e.high = .posInf ∧ price = -d e.var / a e.var :=
      fun he hrest => ⟨_, List.mem_append_left _ hrest, he⟩
    rw [hlast, hprice, hc.gain_eq, maxNum_ofRat]
    split
    · rename_i hinf
      refine ⟨_, rfl, le_max_of_le_left hnonneg, List.forall_mem_append.mpr ⟨?_, ?_⟩, ?_⟩
      · exact fun e he hhigh => le_max_of_le_left (hfloor e he hhigh)
      · exact List.forall_mem_singleton.mpr fun _ => le_max_right _ _
      · rcases max_choice price (-d c.var / a c.var) with hmax | hmax
        · rw [hmax]
          exact hattained.imp id fun ⟨e, he, hgain⟩ => hmem hgain he
        · rw [hmax]
          exact Or.inr ⟨c, List.mem_append_right _ (List.mem_singleton_self c),
            beq_posInf_iff.mp hinf, rfl⟩
    · rename_i hinf
      refine ⟨price, rfl, hnonneg, List.forall_mem_append.mpr ⟨hfloor, ?_⟩,
        hattained.imp id fun ⟨e, he, hgain⟩ => hmem hgain he⟩
      exact List.forall_mem_singleton.mpr fun hhigh => absurd (beq_posInf_iff.mpr hhigh) hinf

/-- A column that is taken for the pivot before another one gains no more. -/
theorem Column.Ranged.le_of_pivotsBefore {c e : Column Exact} (hc : c.Ranged d a z)
    (he : e.Ranged d a z) (h : c.pivotsBefore e = true) :
    -d c.var / a c.var ≤ -d e.var / a e.var := by
  unfold Column.pivotsBefore at h
  rw [hc.gain_eq, he.gain_eq, beq_ofRat, Bool.or_eq_true, Bool.and_eq_true, Bool.and_eq_true,
    decide_eq_true_iff, decide_eq_true_iff, ofRat_lt] at h
  rcases h with hlt | ⟨⟨heq, -⟩, -⟩
  · exact hlt.le
  · exact heq.le

theorem Column.Ranged.le_of_not_pivotsBefore {c e : Column Exact} (hc : c.Ranged d a z)
    (he : e.Ranged d a z) (h : ¬c.pivotsBefore e = true) :
    -d e.var / a e.var ≤ -d c.var / a c.var := by
  unfold Column.pivotsBefore at h
  rw [hc.gain_eq, he.gain_eq, Bool.or_eq_true, not_or, decide_eq_true_iff, ofRat_lt, not_lt] at h
  exact h.1

/-- The pivot gains least of the columns that have no lowest activity. -/
theorem gain_pivot_le (hcols : ∀ c ∈ cols, c.Ranged d a z) (hpivot : pivot? cols = some pivot) :
    ∀ c ∈ cols, c.low = .negInf → -d pivot.var / a pivot.var ≤ -d c.var / a c.var := by
  induction cols using List.reverseRecOn generalizing pivot with
  | nil => cases hpivot
  | append_singleton rest c ih =>
    have hc := hcols c (List.mem_append_right _ (List.mem_singleton_self c))
    have hrest : ∀ e ∈ rest, e.Ranged d a z := fun e he => hcols e (List.mem_append_left _ he)
    rw [pivot?_append_singleton] at hpivot
    rw [List.forall_mem_append, List.forall_mem_singleton]
    rcases pivot?_cases rest with ⟨p, hp, hmem, -⟩ | ⟨hnone, hall⟩
    · have hleast := ih hrest hp
      rw [hp, Option.elim_some] at hpivot
      split at hpivot
      · rw [← Option.some.inj hpivot]
        split
        · rename_i hswap
          have hle := hc.le_of_pivotsBefore (hrest p hmem) hswap
          exact ⟨fun e he hinf => hle.trans (hleast e he hinf), fun _ => le_rfl⟩
        · rename_i hkeep
          exact ⟨hleast, fun _ => hc.le_of_not_pivotsBefore (hrest p hmem) hkeep⟩
      · rename_i hlow
        rw [← Option.some.inj hpivot]
        exact ⟨hleast, fun hinf => absurd (beq_negInf_iff.mpr hinf) hlow⟩
    · -- the last column is the only one
      rw [hnone, Option.elim_none] at hpivot
      refine ⟨fun e he hinf => ?_, fun hinf => ?_⟩
      · have hnot := hall e he
        rw [beq_negInf_iff.mpr hinf] at hnot
        cases hnot
      · rw [if_pos (beq_negInf_iff.mpr hinf)] at hpivot
        rw [← Option.some.inj hpivot]

theorem of_pivot?_eq_some (hpivot : pivot? cols = some pivot) :
    pivot ∈ cols ∧ pivot.low = .negInf := by
  rcases pivot?_cases cols with ⟨p, hp, hmem, hlow⟩ | ⟨hnone, -⟩
  · rw [hpivot] at hp
    rw [Option.some.inj hp]
    exact ⟨hmem, beq_negInf_iff.mp hlow⟩
  · rw [hpivot] at hnone
    cases hnone

/-- Without a pivot every column has a lowest activity. -/
theorem low_ne_negInf (hpivot : pivot? cols = none) {c : Column Exact} (hc : c ∈ cols) :
    c.low ≠ .negInf := by
  rcases pivot?_cases cols with ⟨p, hp, -⟩ | ⟨-, hall⟩
  · rw [hpivot] at hp
    cases hp
  · exact fun hinf => Bool.eq_false_iff.mp (hall c hc) (beq_negInf_iff.mpr hinf)

/-! ## Placing with a pivot -/

/-- The other columns at the price of the pivot. -/
def others {α : Type} [Scalar α] (cols : List (Column α)) (pivot : Column α) :
    List (Column α × Level α) :=
  (cols.filter fun c => c.var != pivot.var).map fun c => (c, c.priced pivot.gain)

/-- At the price of the pivot the other columns are in their ranges, unless one gains more without
end. -/
theorem sits_of_mem_others (hcols : ∀ c ∈ cols, c.Ranged d a z) (hpivot : pivot? cols = some pivot)
    (hfloor : ∀ c ∈ cols, c.high = .posInf → -d c.var / a c.var ≤ -d pivot.var / a pivot.var) :
    ∀ cl ∈ others cols pivot, cl.1 ∈ cols ∧ cl.1.Sits cl.2 := by
  intro cl hcl
  obtain ⟨c, hc, rfl⟩ := List.mem_map.mp hcl
  have hmem := (List.mem_filter.mp hc).1
  refine ⟨hmem, ?_⟩
  dsimp only
  rw [(hcols pivot (of_pivot?_eq_some hpivot).1).gain_eq]
  exact (hcols c hmem).sits_priced (hfloor c hmem) (gain_pivot_le hcols hpivot c hmem)

theorem exists_mem_others {c : Column Exact} (hc : c ∈ cols) (hvar : c.var ≠ pivot.var) :
    ∃ cl ∈ others cols pivot, cl.1.var = c.var :=
  ⟨_, List.mem_map_of_mem (List.mem_filter.mpr ⟨hc, bne_iff_ne.mpr hvar⟩), rfl⟩

/-- What is worth raising has a lowest activity. -/
theorem of_mem_risers {levels : List (Column Exact × Level Exact)}
    (hsits : ∀ cl ∈ levels, cl.1 ∈ cols ∧ cl.1.Sits cl.2) {c : Column Exact}
    (hc : c ∈ risers levels) : c ∈ cols ∧ c.low ≠ .negInf := by
  obtain ⟨level, hcl, hrise⟩ := mem_risers.mp hc
  obtain ⟨hcol, y, hy, -⟩ := hsits _ hcl
  rw [eq_low_of_canRise hrise] at hy
  refine ⟨hcol, fun hinf => ?_⟩
  rw [show c.activity .low = c.low from rfl, hinf] at hy
  cases hy

/-- A column without a lowest activity can take any that is not its highest one or above. -/
theorem Column.Ranged.sits_at {c : Column Exact} (h : c.Ranged d a z) (hlow : c.low = .negInf)
    {y : ℚ} (hhigh : ¬c.high ≤ .ofRat y) : c.Sits (.at (.ofRat y)) := by
  refine ⟨y, rfl, ?_, ?_⟩
  · rw [hlow]
    exact negInf_le_ofRat _
  · rcases h.high_cases with ⟨hi, hhi⟩ | hinf
    · rw [hhi, ofRat_le, not_le] at hhigh
      rw [hhi, ofRat_le]
      exact hhigh.le
    · rw [hinf]
      exact ofRat_le_posInf _

theorem solvePriced_eq (b : Exact) (x : Array Exact) : solvePriced b pivot cols x =
    if pivot.gain < floorPrice cols then .unbounded
    else if pivot.high ≤ b - rowActivity (others cols pivot) then
      .ofPoint (write x (others cols pivot ++
        fill (b - rowActivity (others cols pivot) - pivot.high) (risers (others cols pivot)) ++
        [(pivot, .high)]))
    else .ofPoint (write x (others cols pivot ++
      [(pivot, .at (b - rowActivity (others cols pivot)))])) := rfl

/-- With a pivot, activity can be given up or taken on without end at a gain, or all columns are
placed at activities in their ranges. -/
theorem solvePriced_cases (hcols : ∀ c ∈ cols, c.Ranged d a z) (hpivot : pivot? cols = some pivot)
    (b : ℚ) (x : Array Exact) :
    (solvePriced (.ofRat b) pivot cols x = .unbounded ∧ (-d pivot.var / a pivot.var < 0 ∨
      ∃ c ∈ cols, c.high = .posInf ∧ -d pivot.var / a pivot.var < -d c.var / a c.var)) ∨
    ∃ levels, solvePriced (.ofRat b) pivot cols x = .ofPoint (write x levels) ∧
      (∀ cl ∈ levels, cl.1 ∈ cols ∧ cl.1.Sits cl.2) ∧
      ∀ c ∈ cols, ∃ cl ∈ levels, cl.1.var = c.var := by
  obtain ⟨hmem, hlow⟩ := of_pivot?_eq_some hpivot
  have hranged := hcols pivot hmem
  obtain ⟨price, hprice, -, hfloor, hattained⟩ := floorPrice_spec hcols
  rw [solvePriced_eq, hranged.gain_eq, hprice]
  split
  · rename_i hlt
    rw [ofRat_lt] at hlt
    refine Or.inl ⟨rfl, ?_⟩
    rcases hattained with rfl | ⟨c, hc, hhigh, rfl⟩
    · exact Or.inl hlt
    · exact Or.inr ⟨c, hc, hhigh, hlt⟩
  · rename_i hnot
    rw [ofRat_lt, not_lt] at hnot
    have hsits := sits_of_mem_others hcols hpivot fun c hc hinf => (hfloor c hc hinf).trans hnot
    obtain ⟨activity, hactivity⟩ := exists_rowActivity fun cl hcl =>
      (hsits cl hcl).2.imp fun _ hy => hy.1
    have hplaced : ∀ (level : Level Exact) (filled : List (Column Exact × Level Exact)),
        ∀ c ∈ cols, ∃ cl ∈ others cols pivot ++ filled ++ [(pivot, level)], cl.1.var = c.var := by
      intro level filled c hc
      by_cases hvar : c.var = pivot.var
      · exact ⟨_, List.mem_append_right _ (List.mem_singleton_self _), hvar.symm⟩
      · obtain ⟨cl, hcl, heq⟩ := exists_mem_others hc hvar
        exact ⟨cl, List.mem_append_left _ (List.mem_append_left _ hcl), heq⟩
    rw [hactivity, ofRat_sub]
    refine Or.inr ?_
    split
    · rename_i hle
      have hfinite : pivot.high ≠ .posInf := fun hinf => by
        rw [hinf] at hle
        exact not_posInf_le_ofRat _ hle
      obtain ⟨hi, hhi⟩ := hranged.high_cases.resolve_right hfinite
      rw [hhi, ofRat_sub]
      have hfilled : ∀ cl ∈ fill (.ofRat (b - activity - hi)) (risers (others cols pivot)),
          cl.1.Sits cl.2 := fun cl hcl => sits_of_mem_fill
        (fun c hc => ⟨hcols c (of_mem_risers hsits hc).1, (of_mem_risers hsits hc).2⟩) hcl
      refine ⟨_, rfl, List.forall_mem_append.mpr ⟨List.forall_mem_append.mpr ⟨hsits, ?_⟩,
        List.forall_mem_singleton.mpr ⟨hmem, hranged.sits_high hfinite⟩⟩, hplaced .high _⟩
      exact fun cl hcl => ⟨(of_mem_risers hsits (mem_fill hcl).1).1, hfilled cl hcl⟩
    · rename_i hnle
      refine ⟨_, rfl, List.forall_mem_append.mpr ⟨hsits,
        List.forall_mem_singleton.mpr ⟨hmem, hranged.sits_at hlow hnle⟩⟩, ?_⟩
      have hall := hplaced (.at (.ofRat (b - activity))) []
      rwa [List.append_nil] at hall

end

end BranchBound.OneRow
