import BranchBound.Proofs.OneRow.Pricing

/-!
# Pivoting

What `solvePriced` comes to is certified by a price as well (`solvePriced_placed`), whether the
pivot takes up the slack or is at its highest activity.

If it takes up the slack, the price is its own gain: what gains more is high, what gains less is low,
and what gains as much costs the same wherever it is. If the slack is more than it can take, the
rest is filled in as without a pivot, and the price falls to the gain of the last column raised.
Then a column that gains as much as the pivot must not have been left where nothing binds it. This
is what the order of pivots is for: a pivot with a highest activity is taken only if all columns
that gain as much have one (`high_ne_posInf_of_tie`).
-/

namespace BranchBound.OneRow

open Exact

variable {d a z lo y w f : Nat → ℚ} {c pivot : Column Exact} {cols : List (Column Exact)}

/-! ## Levels at a price -/

namespace Column.Ranged

/-- At a price a column that gains more is high and one that gains less is low. One that gains as
much is at zero only if nothing binds it. -/
theorem priced_cases (h : c.Ranged d a z) (price : ℚ) :
    (c.priced (.ofRat price) = .high ∧ price ≤ -d c.var / a c.var) ∨
    (c.priced (.ofRat price) = .at (.ofRat 0) ∧ -d c.var / a c.var = price ∧ c.low = .negInf ∧
      c.high = .posInf) ∨
    (c.priced (.ofRat price) = .low ∧ -d c.var / a c.var ≤ price) := by
  unfold Column.priced
  rw [h.gain_eq, beq_ofRat, zero_eq]
  split
  · rename_i hlt
    exact Or.inl ⟨rfl, ((ofRat_lt _ _).mp hlt).le⟩
  · rename_i hnot
    rw [ofRat_lt, not_lt] at hnot
    split
    · rename_i hequal
      rw [Bool.and_eq_true, decide_eq_true_iff] at hequal
      split
      · exact Or.inl ⟨rfl, hequal.1.ge⟩
      · rename_i hfinite
        refine Or.inr (Or.inl ⟨rfl, hequal.1, h.low_cases.resolve_left ?_,
          h.high_cases.resolve_left ?_⟩)
        · rintro ⟨q, hq⟩
          rw [hq] at hequal
          exact Bool.false_ne_true hequal.2
        · rintro ⟨q, hq⟩
          rw [hq] at hfinite
          exact hfinite (isFinite_ofRat q)
    · exact Or.inr (Or.inr ⟨rfl, hnot⟩)

/-- At the price by which its level was chosen a column costs least. -/
theorem cheapest_priced (h : c.Ranged d a z) {price v : ℚ}
    (hv : c.activity (c.priced (.ofRat price)) = .ofRat v) :
    c.Cheapest price (-d c.var / a c.var) v := by
  rcases h.priced_cases price with ⟨hlevel, hle⟩ | ⟨-, hgain, -⟩ | ⟨hlevel, hle⟩
  · rw [hlevel] at hv
    exact cheapest_high hv hle
  · rw [hgain]
    exact cheapest_of_price_eq price v
  · rw [hlevel] at hv
    exact (h.inRow hv).cheapest_low hle

/-- It does so at a lower price too, if it is not worth raising and something binds it. -/
theorem cheapest_priced_of_le (h : c.Ranged d a z) {price lower v : ℚ}
    (hv : c.activity (c.priced (.ofRat price)) = .ofRat v) (hlower : 0 ≤ lower)
    (hle : lower ≤ price) (hbinds : -d c.var / a c.var = price → c.low = .negInf →
      c.high ≠ .posInf) (hrise : ¬c.canRise (c.priced (.ofRat price)) = true) :
    c.Cheapest lower (-d c.var / a c.var) v := by
  rcases h.priced_cases price with ⟨hlevel, hgain⟩ | ⟨-, hgain, hlow, hhigh⟩ | ⟨hlevel, -⟩
  · rw [hlevel] at hv
    exact cheapest_high hv (hle.trans hgain)
  · exact absurd hhigh (hbinds hgain hlow)
  · rw [hlevel] at hv hrise
    unfold Column.canRise at hrise
    dsimp only at hrise
    rw [h.gain_eq, zero_eq, Bool.and_eq_true, decide_eq_true_iff, decide_eq_true_iff, ofRat_lt,
      not_and_or, not_lt] at hrise
    rcases hrise with hgain | hroom
    · exact (h.inRow hv).cheapest_low (hgain.trans hlower)
    · exact (h.inRow hv).cheapest_of_no_room hroom lower _

/-- With whole ends the activity is whole. -/
theorem whole_priced (h : c.Ranged d a z) (hc : c ∈ cols) (hends : WholeEnds lo cols)
    (hlow : c.low ≠ .negInf → c.low = .ofRat (lo c.var)) {price v : ℚ}
    (hv : c.activity (c.priced (.ofRat price)) = .ofRat v) : v ∈ wholes := by
  rcases h.priced_cases price with ⟨hlevel, -⟩ | ⟨hlevel, -⟩ | ⟨hlevel, -⟩
  · rw [hlevel] at hv
    exact hends.high c hc v hv
  · rw [hlevel] at hv
    rw [← Exact.ofRat.inj hv]
    exact wholes.zero_mem
  · rw [hlevel] at hv
    have hlo : c.low = .ofRat v := hv
    rw [hlo] at hlow
    rw [Exact.ofRat.inj (hlow fun hinf => nomatch hinf)]
    exact hends.low c hc

end Column.Ranged

/-- A pivot with a highest activity is taken only if every column that gains as much, and has no
lowest activity, has a highest one. -/
theorem high_ne_posInf_of_tie (hcols : ∀ c ∈ cols, c.Ranged d a z)
    (hpivot : pivot? cols = some pivot) (hhigh : pivot.high ≠ .posInf) :
    ∀ c ∈ cols, -d c.var / a c.var = -d pivot.var / a pivot.var → c.low = .negInf →
      c.high ≠ .posInf := by
  induction cols using List.reverseRecOn generalizing pivot with
  | nil => cases hpivot
  | append_singleton rest c ih =>
    have hc := hcols c (List.mem_append_right _ (List.mem_singleton_self c))
    have hrest : ∀ e ∈ rest, e.Ranged d a z := fun e he => hcols e (List.mem_append_left _ he)
    rw [pivot?_append_singleton] at hpivot
    rw [List.forall_mem_append, List.forall_mem_singleton]
    split at hpivot
    · rename_i hlow
      cases hp : pivot? rest with
      | none =>
        rw [hp, Option.elim_none] at hpivot
        obtain rfl := Option.some.inj hpivot
        exact ⟨fun e he _ hinf => absurd hinf (low_ne_negInf hp he), fun _ _ => hhigh⟩
      | some p =>
        have hranged := hrest p (of_pivot?_eq_some hp).1
        rw [hp, Option.elim_some] at hpivot
        split at hpivot
        · rename_i hswap
          obtain rfl := Option.some.inj hpivot
          refine ⟨fun e he htie hinf => ?_, fun _ _ => hhigh⟩
          -- it would gain less than the old pivot, or else it would have no highest activity
          have hle := gain_pivot_le hrest hp e he hinf
          unfold Column.pivotsBefore at hswap
          rw [hc.gain_eq, hranged.gain_eq, Bool.or_eq_true, Bool.and_eq_true,
            decide_eq_true_iff, ofRat_lt] at hswap
          rcases hswap with hlt | ⟨-, hinfinite⟩
          · exact absurd (hle.trans_eq htie) (not_le.mpr hlt)
          · obtain ⟨hi, hhi⟩ := hc.high_cases.resolve_right hhigh
            rw [hhi] at hinfinite
            exact absurd hinfinite Bool.false_ne_true
        · rename_i hkeep
          obtain rfl := Option.some.inj hpivot
          refine ⟨ih hrest hp hhigh, fun htie _ hinf => hkeep ?_⟩
          obtain ⟨hi, hhi⟩ := hranged.high_cases.resolve_right hhigh
          unfold Column.pivotsBefore
          rw [hc.gain_eq, hranged.gain_eq, beq_ofRat, htie, hhi, hinf, Bool.or_eq_true,
            decide_eq_true rfl]
          exact Or.inr rfl
    · rename_i hlow
      exact ⟨ih hrest hpivot hhigh, fun _ hinf => absurd (beq_negInf_iff.mpr hinf) hlow⟩

/-! ## Activities of all columns -/

section

variable {α : Type} {cols : List (Column α)} {pivot : Column α}
  (hnodup : (cols.map Column.var).Nodup)

include hnodup

/-- What every column has is had by the numbers of the variables. -/
theorem exists_numbers_of_nodup {P : Column α → ℚ → Prop} (h : ∀ c ∈ cols, ∃ q, P c q) :
    ∃ g : Nat → ℚ, ∀ c ∈ cols, P c (g c.var) := by
  have hvar : ∀ j, ∃ q, ∀ c ∈ cols, c.var = j → P c q := by
    intro j
    by_cases hj : ∃ e ∈ cols, e.var = j
    · obtain ⟨e, he, rfl⟩ := hj
      obtain ⟨q, hq⟩ := h e he
      refine ⟨q, fun c hc hsame => ?_⟩
      rw [List.inj_on_of_nodup_map hnodup hc he hsame]
      exact hq
    · exact ⟨0, fun c hc hsame => absurd ⟨c, hc, hsame⟩ hj⟩
  choose g hg using hvar
  exact ⟨g, fun c hc => hg c.var c hc rfl⟩

variable (hmem : pivot ∈ cols)

include hmem

/-- What holds of a value of the pivot and of the values of the others holds of all columns. -/
theorem forall_update_pivot {P : Column α → ℚ → Prop} {v : ℚ} (hpivot : P pivot v)
    (hothers : ∀ c ∈ cols, c.var ≠ pivot.var → P c (y c.var)) :
    ∀ c ∈ cols, P c (Function.update y pivot.var v c.var) := by
  intro c hc
  by_cases hvar : c.var = pivot.var
  · obtain rfl := List.inj_on_of_nodup_map hnodup hc hmem hvar
    rw [Function.update_self]
    exact hpivot
  · rw [Function.update_of_ne hvar]
    exact hothers c hc hvar

theorem sum_update_pivot (v : ℚ) :
    (cols.map fun c => Function.update y pivot.var v c.var).sum =
      v + ((cols.filter fun c => c.var != pivot.var).map fun c => y c.var).sum := by
  let g := Function.update y pivot.var v
  have hvars : ∀ l : List (Column α), (l.map fun c => g c.var) = (l.map Column.var).map g :=
    fun l => by
      rw [List.map_map]
      rfl
  have herase : (cols.filter fun c => c.var != pivot.var).map Column.var =
      (cols.map Column.var).erase pivot.var := by
    rw [hnodup.erase_eq_filter, List.filter_map]
    rfl
  have hothers : ((cols.filter fun c => c.var != pivot.var).map fun c => y c.var) =
      (cols.filter fun c => c.var != pivot.var).map fun c => g c.var := by
    refine List.map_congr_left fun c hc => (Function.update_of_ne ?_ _ _).symm
    exact bne_iff_ne.mp (List.mem_filter.mp hc).2
  rw [hothers, hvars, hvars, herase, ← List.sum_map_erase g (List.mem_map_of_mem hmem)]
  exact congrArg (· + _) (Function.update_self _ _ _)

end

/-- Activities of the columns other than the pivot, at its price. -/
def AtPrice (pivot : Column Exact) (cols : List (Column Exact)) (y : Nat → ℚ) : Prop :=
  ∀ c ∈ cols, c.var ≠ pivot.var →
    c.activity (c.priced pivot.gain) = .ofRat (y c.var) ∧ c.Within (y c.var)

theorem exists_atPrice (hcols : ∀ c ∈ cols, c.Ranged d a z) (hnodup : (cols.map Column.var).Nodup)
    (hpivot : pivot? cols = some pivot)
    (hfloor : ∀ c ∈ cols, c.high = .posInf → -d c.var / a c.var ≤ -d pivot.var / a pivot.var) :
    ∃ y, AtPrice pivot cols y := by
  refine exists_numbers_of_nodup (P := fun c q => c.var ≠ pivot.var →
    c.activity (c.priced pivot.gain) = .ofRat q ∧ c.Within q) hnodup fun c hc => ?_
  by_cases hvar : c.var = pivot.var
  · exact ⟨0, fun hne => absurd hvar hne⟩
  · have hlevel : (c, c.priced pivot.gain) ∈ others cols pivot :=
      List.mem_map_of_mem (List.mem_filter.mpr ⟨hc, bne_iff_ne.mpr hvar⟩)
    obtain ⟨q, hq⟩ := (sits_of_mem_others hcols hpivot hfloor _ hlevel).2
    exact ⟨q, fun _ => hq⟩

theorem mem_others {α : Type} [Scalar α] {cols : List (Column α)} {pivot : Column α}
    {cl : Column α × Level α} : cl ∈ others cols pivot ↔
    cl.1 ∈ cols ∧ cl.1.var ≠ pivot.var ∧ cl.2 = cl.1.priced pivot.gain := by
  unfold others
  rw [List.mem_map]
  constructor
  · rintro ⟨c, hc, rfl⟩
    obtain ⟨hc, hvar⟩ := List.mem_filter.mp hc
    exact ⟨hc, bne_iff_ne.mp hvar, rfl⟩
  · rintro ⟨hc, hvar, hlevel⟩
    exact ⟨cl.1, List.mem_filter.mpr ⟨hc, bne_iff_ne.mpr hvar⟩, Prod.ext rfl hlevel.symm⟩

theorem nodup_others {α : Type} [Scalar α] {cols : List (Column α)} {pivot : Column α}
    (hnodup : (cols.map Column.var).Nodup) :
    ((others cols pivot).map fun cl => cl.1.var).Nodup := by
  unfold others
  rw [List.map_map]
  exact hnodup.sublist (List.filter_sublist.map _)

/-- The activities of the other columns together. -/
def restActivity (pivot : Column Exact) (cols : List (Column Exact)) (y : Nat → ℚ) : ℚ :=
  ((cols.filter fun c => c.var != pivot.var).map fun c => y c.var).sum

theorem AtPrice.rowActivity_others (hy : AtPrice pivot cols y) :
    rowActivity (others cols pivot) = .ofRat (restActivity pivot cols y) := by
  unfold rowActivity others restActivity
  rw [List.map_map, ← sum_map]
  congr 2
  refine List.map_congr_left fun c hc => ?_
  obtain ⟨hc, hvar⟩ := List.mem_filter.mp hc
  exact (hy c hc (bne_iff_ne.mp hvar)).1

/-- The point that is written for the others, some of them raised, and the pivot. -/
theorem AtPrice.write_eq {n : Nat} (hy : AtPrice pivot cols y)
    (hcols : ∀ c ∈ cols, c.Ranged d a z) (hmem : pivot ∈ cols)
    {filled : List (Column Exact × Level Exact)} {level : Level Exact}
    (hfilled : ∀ cl ∈ filled, cl.1 ∈ cols ∧ cl.1.activity cl.2 = .ofRat (w cl.1.var))
    (hlevel : pivot.activity level = .ofRat (w pivot.var))
    (hkept : ∀ c ∈ cols, c.var ≠ pivot.var → (∀ cl ∈ filled, cl.1.var ≠ c.var) →
      w c.var = y c.var) :
    write (vector n f) (others cols pivot ++ filled ++ [(pivot, level)]) =
      vector n fun j => if j ∈ cols.map Column.var then w j / a j else f j := by
  have hvalue : ∀ {c : Column Exact} {level : Level Exact} {v : ℚ}, c ∈ cols →
      c.activity level = .ofRat v → c.value level = .ofRat (v / a c.var) := fun hc hv =>
    Column.value_of_activity (hcols _ hc).coef (hcols _ hc).ne_zero hv
  have hothers : ∀ cl ∈ others cols pivot, cl.1.value cl.2 = .ofRat (y cl.1.var / a cl.1.var) := by
    intro cl hcl
    obtain ⟨hc, hvar, hcl⟩ := mem_others.mp hcl
    rw [hcl]
    exact hvalue hc (hy cl.1 hc hvar).1
  have hlast : ∀ cl ∈ filled ++ [(pivot, level)],
      cl.1 ∈ cols ∧ cl.1.value cl.2 = .ofRat (w cl.1.var / a cl.1.var) := by
    refine List.forall_mem_append.mpr ⟨fun cl hcl => ?_, List.forall_mem_singleton.mpr ?_⟩
    · exact ⟨(hfilled cl hcl).1, hvalue (hfilled cl hcl).1 (hfilled cl hcl).2⟩
    · exact ⟨hmem, hvalue hmem hlevel⟩
  rw [List.append_assoc, write_append, write_vector (v := fun j => y j / a j) hothers,
    write_vector (v := fun j => w j / a j) fun cl hcl => (hlast cl hcl).2]
  refine vector_congr fun j _ => ?_
  by_cases hj : j ∈ (filled ++ [(pivot, level)]).map fun cl => cl.1.var
  · obtain ⟨cl, hcl, rfl⟩ := List.mem_map.mp hj
    rw [if_pos hj, if_pos (List.mem_map_of_mem (hlast cl hcl).1)]
  · rw [if_neg hj]
    by_cases hcol : j ∈ cols.map Column.var
    · obtain ⟨c, hc, rfl⟩ := List.mem_map.mp hcol
      have hvar : c.var ≠ pivot.var := fun hsame => hj (List.mem_map.mpr
        ⟨_, List.mem_append_right _ (List.mem_singleton_self _), hsame.symm⟩)
      have hplaced : c.var ∈ (others cols pivot).map fun cl => cl.1.var :=
        List.mem_map.mpr ⟨(c, c.priced pivot.gain), mem_others.mpr ⟨hc, hvar, rfl⟩, rfl⟩
      rw [if_pos hcol, if_pos hplaced, hkept c hc hvar fun cl hcl hsame =>
        hj (List.mem_map.mpr ⟨cl, List.mem_append_left _ hcl, hsame⟩)]
    · rw [if_neg hcol, if_neg fun hplaced => hcol ?_]
      obtain ⟨cl, hcl, rfl⟩ := List.mem_map.mp hplaced
      exact List.mem_map_of_mem (mem_others.mp hcl).1

theorem mem_risers_others {α : Type} [Scalar α] {cols : List (Column α)} {c pivot : Column α} :
    c ∈ risers (others cols pivot) ↔
    c ∈ cols ∧ c.var ≠ pivot.var ∧ c.canRise (c.priced pivot.gain) = true := by
  rw [mem_risers]
  constructor
  · rintro ⟨level, hlevel, hrise⟩
    obtain ⟨hc, hvar, heq⟩ := mem_others.mp hlevel
    rw [show level = c.priced pivot.gain from heq] at hrise
    exact ⟨hc, hvar, hrise⟩
  · rintro ⟨hc, hvar, hrise⟩
    exact ⟨_, mem_others.mpr ⟨hc, hvar, rfl⟩, hrise⟩

/-! ## The certificate -/

section

variable {b hi rest lower : ℚ} (hcols : ∀ c ∈ cols, c.Ranged d a z)
  (hnodup : (cols.map Column.var).Nodup) (hpivot : pivot? cols = some pivot)
  (hy : AtPrice pivot cols y)

include hcols hpivot

theorem gain_pivot_eq : pivot.gain = .ofRat (-d pivot.var / a pivot.var) :=
  (hcols pivot (of_pivot?_eq_some hpivot).1).gain_eq

/-- Columns that are worth raising gain no more than the pivot. -/
theorem gain_le_of_mem_risers (hc : c ∈ risers (others cols pivot)) :
    0 < -d c.var / a c.var ∧ -d c.var / a c.var ≤ -d pivot.var / a pivot.var := by
  obtain ⟨hc, -, hrise⟩ := mem_risers_others.mp hc
  have hlevel := eq_low_of_canRise hrise
  rw [hlevel] at hrise
  unfold Column.canRise at hrise
  dsimp only at hrise
  rw [Bool.and_eq_true, decide_eq_true_iff, (hcols c hc).gain_eq, zero_eq, ofRat_lt] at hrise
  refine ⟨hrise.1, ?_⟩
  rw [gain_pivot_eq hcols hpivot] at hlevel
  rcases (hcols c hc).priced_cases (-d pivot.var / a pivot.var) with
    ⟨hhigh, -⟩ | ⟨hat, -⟩ | ⟨-, hle⟩
  · rw [hhigh] at hlevel
    cases hlevel
  · rw [hat] at hlevel
    cases hlevel
  · exact hle

include hy

theorem AtPrice.whole (hlow : ∀ c ∈ cols, c.low ≠ .negInf → c.low = .ofRat (lo c.var))
    (hends : WholeEnds lo cols) (hc : c ∈ cols) (hvar : c.var ≠ pivot.var) :
    y c.var ∈ wholes := by
  have hactivity := (hy c hc hvar).1
  rw [gain_pivot_eq hcols hpivot] at hactivity
  exact (hcols c hc).whole_priced hc hends (hlow c hc) hactivity

theorem AtPrice.whole_restActivity
    (hlow : ∀ c ∈ cols, c.low ≠ .negInf → c.low = .ofRat (lo c.var)) (hends : WholeEnds lo cols) :
    restActivity pivot cols y ∈ wholes := by
  refine wholes.list_sum_mem fun q hq => ?_
  obtain ⟨c, hc, rfl⟩ := List.mem_map.mp hq
  obtain ⟨hc, hvar⟩ := List.mem_filter.mp hc
  exact hy.whole hcols hpivot hlow hends hc (bne_iff_ne.mp hvar)

omit hpivot in
/-- Columns that are worth raising have a lowest activity. -/
theorem AtPrice.inRow_of_mem_risers
    (hlow : ∀ c ∈ cols, c.low ≠ .negInf → c.low = .ofRat (lo c.var)) :
    ∀ c ∈ risers (others cols pivot), c.InRow d a lo := by
  intro c hc
  have hsits : ∀ cl ∈ others cols pivot, cl.1 ∈ cols ∧ cl.1.Sits cl.2 := by
    intro cl hcl
    obtain ⟨hc, hvar, hlevel⟩ := mem_others.mp hcl
    rw [hlevel]
    exact ⟨hc, y cl.1.var, hy cl.1 hc hvar⟩
  obtain ⟨hc, hinf⟩ := of_mem_risers hsits hc
  have hranged := hcols c hc
  exact ⟨hranged.cost, hranged.coef, hranged.ne_zero, hlow c hc hinf,
    Exact.le_trans hranged.within.1 hranged.within.2⟩

include hnodup

omit hnodup in
/-- At the price a column is at an end of its range, or at zero. -/
theorem AtPrice.atEnd (hc : c ∈ cols) (hvar : c.var ≠ pivot.var) : c.AtEnd (y c.var) := by
  have hactivity := (hy c hc hvar).1
  rw [gain_pivot_eq hcols hpivot] at hactivity
  rcases (hcols c hc).priced_cases (-d pivot.var / a pivot.var) with
    ⟨hlevel, -⟩ | ⟨hlevel, -⟩ | ⟨hlevel, -⟩
  · rw [hlevel] at hactivity
    exact Or.inr (Or.inl hactivity)
  · rw [hlevel] at hactivity
    exact Or.inr (Or.inr (Exact.ofRat.inj hactivity).symm)
  · rw [hlevel] at hactivity
    exact Or.inl hactivity

/-- If the pivot takes up the slack, no other column is inside its range. -/
theorem AtPrice.cornered_of_room
    (hroom : ¬pivot.high ≤ .ofRat (b - restActivity pivot cols y)) :
    Cornered b cols (Function.update y pivot.var (b - restActivity pivot cols y)) := by
  obtain ⟨hmem, hinf⟩ := of_pivot?_eq_some hpivot
  have hinside : pivot.Inside (b - restActivity pivot cols y) := by
    have hvalid := (valid_of_le (hcols pivot hmem).within.2).2
    refine ⟨hinf ▸ negInf_lt_ofRat _, ?_⟩
    by_contra hnot
    exact hroom (Exact.le_of_not_lt hvalid (by simp) hnot)
  have htotal : (cols.map fun c =>
      Function.update y pivot.var (b - restActivity pivot cols y) c.var).sum = b := by
    rw [sum_update_pivot hnodup hmem]
    exact sub_add_cancel b _
  exact ⟨pivot.var, forall_update_pivot (P := fun c q => c.AtEnd q ∨ c.var = pivot.var ∧
    c.Inside q ∧ _) hnodup hmem (Or.inr ⟨rfl, hinside, htotal⟩)
    fun c hc hvar => Or.inl (hy.atEnd hcols hpivot hc hvar)⟩

/-- A pivot that takes up the slack makes its own gain the price. -/
theorem AtPrice.placed_of_room
    (hlow : ∀ c ∈ cols, c.low ≠ .negInf → c.low = .ofRat (lo c.var))
    (hprice : 0 ≤ -d pivot.var / a pivot.var)
    (hroom : ¬pivot.high ≤ .ofRat (b - restActivity pivot cols y)) :
    Placed d a lo b cols (Function.update y pivot.var (b - restActivity pivot cols y))
      (-d pivot.var / a pivot.var) := by
  obtain ⟨hmem, hinf⟩ := of_pivot?_eq_some hpivot
  have htotal : (cols.map fun c =>
      Function.update y pivot.var (b - restActivity pivot cols y) c.var).sum = b := by
    rw [sum_update_pivot hnodup hmem]
    exact sub_add_cancel b _
  refine ⟨?_, ?_, hprice, ?_, Or.inr htotal.ge, fun hends hb => ?_⟩
  · obtain ⟨v, hv, hwithin⟩ := (hcols pivot hmem).sits_at hinf hroom
    obtain rfl := Exact.ofRat.inj hv
    exact forall_update_pivot (P := fun c => c.Within) hnodup hmem hwithin
      fun c hc hvar => (hy c hc hvar).2
  · refine forall_update_pivot (P := fun c => c.Cheapest _ (-d c.var / a c.var)) hnodup hmem
      (Column.cheapest_of_price_eq _ _) fun c hc hvar => ?_
    have hactivity := (hy c hc hvar).1
    rw [gain_pivot_eq hcols hpivot] at hactivity
    exact (hcols c hc).cheapest_priced hactivity
  · rw [htotal]
    linarith [allowance_nonneg b]
  · exact forall_update_pivot (P := fun _ q => q ∈ wholes) hnodup hmem
      (wholes.sub_mem hb (hy.whole_restActivity hcols hpivot hlow hends))
      fun c hc hvar => hy.whole hcols hpivot hlow hends hc hvar

variable (hfilled : Filled d a lo (b - restActivity pivot cols y - hi)
  (risers (others cols pivot)) w rest lower)

include hfilled

omit hcols hpivot in
/-- What is filled in on top of the levels at the price: a column that is raised was at its lowest
activity, and one that is not raised keeps its own. -/
theorem AtPrice.raised_or_kept
    (hlow : ∀ c ∈ cols, c.low ≠ .negInf → c.low = .ofRat (lo c.var)) (hc : c ∈ cols)
    (hvar : c.var ≠ pivot.var) :
    (c ∈ risers (others cols pivot) ∧ y c.var + (w c.var - lo c.var) = w c.var) ∨
      (c ∉ risers (others cols pivot) ∧ y c.var + (w c.var - lo c.var) = y c.var) := by
  by_cases hraised : c ∈ risers (others cols pivot)
  · have hactivity := (hy c hc hvar).1
    rw [eq_low_of_canRise (mem_risers_others.mp hraised).2.2] at hactivity
    have hv : c.low = .ofRat (y c.var) := hactivity
    have hlo := hlow c hc
    rw [hv] at hlo
    rw [Exact.ofRat.inj (hlo fun hinf => nomatch hinf)]
    exact Or.inl ⟨hraised, add_sub_cancel _ _⟩
  · rw [hfilled.eq_low hnodup (fun e he => (mem_risers_others.mp he).1) hc hraised, sub_self,
      add_zero]
    exact Or.inr ⟨hraised, rfl⟩

omit hcols hy in
/-- The pivot at its highest activity, the others and what is filled in come to the slack. -/
theorem sum_update_filled :
    (cols.map fun c => Function.update (fun j => y j + (w j - lo j)) pivot.var hi c.var).sum =
      b - rest := by
  have hraised := hfilled.sum_raised (nodup_others hnodup)
  unfold others at hraised
  rw [List.map_map] at hraised
  have hsum : ((cols.filter fun c => c.var != pivot.var).map fun c => w c.var - lo c.var).sum =
      b - restActivity pivot cols y - hi - rest := hraised
  rw [sum_update_pivot hnodup (of_pivot?_eq_some hpivot).1, List.sum_map_add, hsum]
  unfold restActivity
  ring

/-- If the pivot is at its highest activity, one column at most of those that are filled in is
inside its range. -/
theorem AtPrice.cornered_of_filled
    (hlow : ∀ c ∈ cols, c.low ≠ .negInf → c.low = .ofRat (lo c.var)) (hhi : pivot.high = .ofRat hi) :
    Cornered b cols (Function.update (fun j => y j + (w j - lo j)) pivot.var hi) := by
  obtain ⟨k, hk⟩ := hfilled.atEnd_or_inside (hy.inRow_of_mem_risers hcols hlow)
    (nodup_risers (nodup_others hnodup)) fun c hc => (gain_le_of_mem_risers hcols hpivot hc).1
  have htotal := sum_update_filled hnodup hpivot hfilled
  refine ⟨k, forall_update_pivot (P := fun c q => c.AtEnd q ∨ c.var = k ∧ c.Inside q ∧ _) hnodup
    (of_pivot?_eq_some hpivot).1 (Or.inl (Or.inr (Or.inl hhi))) fun c hc hvar => ?_⟩
  rcases hy.raised_or_kept hnodup hfilled hlow hc hvar with ⟨hraised, heq⟩ | ⟨-, heq⟩
  · rw [heq, htotal]
    refine (hk c hraised).imp_right fun ⟨hsame, hinside, hrest, _⟩ => ⟨hsame, hinside, ?_⟩
    rw [hrest, sub_zero]
  · rw [heq]
    exact Or.inl (hy.atEnd hcols hpivot hc hvar)

/-- A pivot at its highest activity leaves the price to the columns that are filled in. -/
theorem AtPrice.placed_of_filled
    (hlow : ∀ c ∈ cols, c.low ≠ .negInf → c.low = .ofRat (lo c.var))
    (hprice : 0 ≤ -d pivot.var / a pivot.var) (hhi : pivot.high = .ofRat hi) :
    Placed d a lo b cols
      (Function.update (fun j => y j + (w j - lo j)) pivot.var hi) lower := by
  have hmem := (of_pivot?_eq_some hpivot).1
  have htotal := sum_update_filled hnodup hpivot hfilled
  have hlower : lower ≤ -d pivot.var / a pivot.var := by
    rcases hfilled.price_mem with hzero | ⟨c, hc, heq⟩
    · rw [hzero]
      exact hprice
    · rw [heq]
      exact (gain_le_of_mem_risers hcols hpivot hc).2
  refine ⟨?_, ?_, hfilled.price_nonneg, ?_, ?_, fun hends hb => ?_⟩
  · obtain ⟨v, hv, hwithin⟩ := (hcols pivot hmem).sits_high (by simp [hhi])
    obtain rfl := Exact.ofRat.inj (hhi.symm.trans hv)
    refine forall_update_pivot (P := fun c => c.Within) hnodup hmem hwithin fun c hc hvar => ?_
    rcases hy.raised_or_kept hnodup hfilled hlow hc hvar with ⟨hraised, heq⟩ | ⟨-, heq⟩
    · rw [heq]
      exact hfilled.within c hraised
    · rw [heq]
      exact (hy c hc hvar).2
  · refine forall_update_pivot (P := fun c => c.Cheapest lower (-d c.var / a c.var)) hnodup hmem
      (Column.cheapest_high hhi hlower) fun c hc hvar => ?_
    rcases hy.raised_or_kept hnodup hfilled hlow hc hvar with ⟨hraised, heq⟩ | ⟨hkept, heq⟩
    · rw [heq]
      exact hfilled.cheapest c hraised
    · -- it was left for want of a gain or of room, and the price it was left at has only fallen
      have hactivity := (hy c hc hvar).1
      rw [mem_risers_others, not_and, not_and] at hkept
      have hrise := hkept hc hvar
      rw [gain_pivot_eq hcols hpivot] at hactivity hrise
      rw [heq]
      exact (hcols c hc).cheapest_priced_of_le hactivity hfilled.price_nonneg hlower
        (high_ne_posInf_of_tie hcols hpivot (by simp [hhi]) c hc) hrise
  · rw [htotal]
    linarith [allowance_nonneg b, hfilled.rest_nonneg]
  · rw [htotal]
    exact hfilled.tight.imp_right fun hrest => by rw [hrest, sub_zero]
  · have hhigh := hends.high pivot hmem hi hhi
    have hslack := wholes.sub_mem
      (wholes.sub_mem hb (hy.whole_restActivity hcols hpivot hlow hends)) hhigh
    refine forall_update_pivot (P := fun _ q => q ∈ wholes) hnodup hmem hhigh fun c hc hvar => ?_
    rcases hy.raised_or_kept hnodup hfilled hlow hc hvar with ⟨hraised, heq⟩ | ⟨-, heq⟩
    · rw [heq]
      exact hfilled.whole_of_mem (hy.inRow_of_mem_risers hcols hlow)
        (hends.of_subset fun e he => (mem_risers_others.mp he).1) hslack hraised
    · rw [heq]
      exact hy.whole hcols hpivot hlow hends hc hvar

end

/-! ## Placing with a pivot -/

/-- With a pivot the columns are unbounded, or they come to activities that a price certifies. -/
theorem solvePriced_placed (hcols : ∀ c ∈ cols, c.Ranged d a z)
    (hnodup : (cols.map Column.var).Nodup) (hpivot : pivot? cols = some pivot) (b : ℚ) :
    (∀ x, solvePriced (.ofRat b) pivot cols x = .unbounded) ∨
    ∃ lo y price, Placed d a lo b cols y price ∧ Cornered b cols y ∧
      ∀ n f, solvePriced (.ofRat b) pivot cols (vector n f) = .solved (vector n fun j =>
        if j ∈ cols.map Column.var then y j / a j else f j) := by
  have hmem := (of_pivot?_eq_some hpivot).1
  obtain ⟨floor, hfloor, hnonneg, hleast, -⟩ := floorPrice_spec hcols
  simp only [solvePriced_eq, gain_pivot_eq hcols hpivot, hfloor, ofRat_lt]
  by_cases hunbounded : -d pivot.var / a pivot.var < floor
  · exact Or.inl fun x => if_pos hunbounded
  simp only [if_neg hunbounded]
  have hle := not_lt.mp hunbounded
  obtain ⟨y, hy⟩ := exists_atPrice hcols hnodup hpivot fun c hc hinf => (hleast c hc hinf).trans hle
  obtain ⟨lo, hlow⟩ := exists_numbers_of_nodup
    (P := fun c q => c.low ≠ .negInf → c.low = .ofRat q) hnodup fun c hc => by
      rcases (hcols c hc).low_cases with ⟨q, hq⟩ | hinf
      · exact ⟨q, fun _ => hq⟩
      · exact ⟨0, fun hne => absurd hinf hne⟩
  simp only [hy.rowActivity_others, ofRat_sub]
  refine Or.inr ⟨lo, ?_⟩
  by_cases hroom : pivot.high ≤ .ofRat (b - restActivity pivot cols y)
  · obtain ⟨hi, hhi⟩ := (hcols pivot hmem).high_cases.resolve_right fun hinf => by
      rw [hinf] at hroom
      exact not_posInf_le_ofRat _ hroom
    have hslack := hroom
    rw [hhi, ofRat_le] at hslack
    have hrow := hy.inRow_of_mem_risers hcols hlow
    obtain ⟨w, rest, lower, hfilled⟩ := exists_filled hrow
      (nodup_risers (nodup_others hnodup)) (pairwise_risers hrow)
      (fun c hc => (gain_le_of_mem_risers hcols hpivot hc).1.le) (sub_nonneg.mpr hslack)
    refine ⟨_, lower, hy.placed_of_filled hcols hnodup hpivot hfilled hlow (hnonneg.trans hle) hhi,
      hy.cornered_of_filled hcols hnodup hpivot hfilled hlow hhi, fun n f => ?_⟩
    rw [if_pos hroom, hhi, ofRat_sub, hy.write_eq hcols hmem, ofPoint_vector]
    · intro cl hcl
      obtain ⟨hraised, hactivity⟩ := hfilled.placed cl hcl
      obtain ⟨hc, hvar, -⟩ := mem_risers_others.mp hraised
      rw [Function.update_of_ne hvar]
      rcases hy.raised_or_kept hnodup hfilled hlow hc hvar with ⟨-, heq⟩ | ⟨hkept, -⟩
      · rw [heq]
        exact ⟨hc, hactivity⟩
      · exact absurd hraised hkept
    · rw [Function.update_self]
      exact hhi
    · intro c hc hvar hnone
      rw [Function.update_of_ne hvar, hfilled.unplaced c.var hnone, sub_self, add_zero]
  · refine ⟨_, _, hy.placed_of_room hcols hnodup hpivot hlow (hnonneg.trans hle) hroom,
      hy.cornered_of_room hcols hnodup hpivot hroom, fun n f => ?_⟩
    have hlevel : pivot.activity (.at (.ofRat (b - restActivity pivot cols y))) = .ofRat
        (Function.update y pivot.var (b - restActivity pivot cols y) pivot.var) := by
      rw [Function.update_self]
      rfl
    have hwritten := hy.write_eq (n := n) (f := f) hcols hmem
      (fun cl (hcl : cl ∈ []) => absurd hcl List.not_mem_nil) hlevel
      fun c _ hvar _ => Function.update_of_ne hvar _ _
    rw [List.append_nil] at hwritten
    rw [if_neg hroom, hwritten, ofPoint_vector]

end BranchBound.OneRow
