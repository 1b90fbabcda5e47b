import BranchBound.Proofs.OneRow.Filling
import Mathlib.Algebra.Ring.Subring.Basic

/-!
# Placing the variables of a row

What `solveBounded` makes of columns with a rational lowest activity: it finds them infeasible if
the lowest activities alone are above the right-hand side, and otherwise it comes to activities that
a price certifies (`Placed`). With whole activities at the ends of the ranges and a whole
right-hand side, the activities it comes to are whole too (`Placed.whole`).
-/

namespace BranchBound.OneRow

open Exact

/-! ## Writing values -/

section

variable {n : Nat} {f v : Nat → ℚ}

/-- Values that are written one after the other, each at its own index. -/
theorem foldl_set_vector {β : Type} {l : List β} (index : β → Nat) (value : β → Exact)
    (h : ∀ i ∈ l, value i = .ofRat (v (index i))) :
    l.foldl (fun x i => x.setIfInBounds (index i) (value i)) (vector n f) =
      vector n fun j => if j ∈ l.map index then v j else f j := by
  induction l generalizing f with
  | nil => simp
  | cons i rest ih =>
    have hset : (vector n f).setIfInBounds (index i) (.ofRat (v (index i))) =
        vector n (Function.update f (index i) (v (index i))) := by
      unfold vector
      rw [setIfInBounds_tabulate]
      refine tabulate_congr fun j _ => ?_
      by_cases hj : j = index i
      · rw [hj, Function.update_self, Function.update_self]
      · rw [Function.update_of_ne hj, Function.update_of_ne hj]
    rw [List.foldl_cons, h i List.mem_cons_self, hset,
      ih fun k hk => h k (List.mem_cons_of_mem i hk)]
    refine vector_congr fun j _ => ?_
    rw [List.map_cons]
    by_cases hrest : j ∈ rest.map index
    · rw [if_pos hrest, if_pos (List.mem_cons_of_mem _ hrest)]
    · rw [if_neg hrest]
      by_cases hj : j = index i
      · rw [hj, Function.update_self, if_pos List.mem_cons_self]
      · rw [Function.update_of_ne hj, if_neg fun hmem => (List.mem_cons.mp hmem).elim hj hrest]

theorem write_vector {levels : List (Column Exact × Level Exact)}
    (h : ∀ cl ∈ levels, cl.1.value cl.2 = .ofRat (v cl.1.var)) :
    write (vector n f) levels =
      vector n fun j => if j ∈ levels.map (fun cl => cl.1.var) then v j else f j :=
  foldl_set_vector (fun cl : Column Exact × Level Exact => cl.1.var)
    (fun cl => cl.1.value cl.2) h

theorem write_append {α : Type} [Scalar α] (x : Array α) (first second : List (Column α × Level α)) :
    write x (first ++ second) = write (write x first) second :=
  List.foldl_append

end

/-! ## Which variables are placed -/

section

variable {α : Type} [Scalar α] {cols : List (Column α)} {c : Column α}

theorem mem_risers {levels : List (Column α × Level α)} :
    c ∈ risers levels ↔ ∃ level, (c, level) ∈ levels ∧ c.canRise level = true := by
  unfold risers
  rw [List.mem_mergeSort, List.mem_map]
  constructor
  · rintro ⟨⟨e, level⟩, hmem, rfl⟩
    rw [List.mem_filter] at hmem
    exact ⟨level, hmem⟩
  · rintro ⟨level, hmem, hrise⟩
    exact ⟨(c, level), List.mem_filter.mpr ⟨hmem, hrise⟩, rfl⟩

theorem mem_risers_map {level : Column α → Level α} :
    c ∈ risers (cols.map fun e => (e, level e)) ↔ c ∈ cols ∧ c.canRise (level c) = true := by
  rw [mem_risers]
  constructor
  · rintro ⟨l, hl, hrise⟩
    obtain ⟨e, he, heq⟩ := List.mem_map.mp hl
    obtain ⟨rfl, rfl⟩ := Prod.mk.inj heq
    exact ⟨he, hrise⟩
  · rintro ⟨hc, hrise⟩
    exact ⟨level c, List.mem_map_of_mem hc, hrise⟩

theorem pivot?_append_singleton (cols : List (Column α)) (c : Column α) :
    pivot? (cols ++ [c]) =
      if c.low == -Scalar.inf then
        some ((pivot? cols).elim c fun p => if c.pivotsBefore p then c else p)
      else pivot? cols := by
  unfold pivot?
  rw [List.foldl_append]
  generalize List.foldl _ none cols = pivot
  rw [List.foldl_cons, List.foldl_nil]
  split
  · cases pivot with
    | none => rfl
    | some p => exact (apply_ite some _ _ _).symm
  · rfl

/-- The pivot is one of the variables whose activity has no lowest value, if there are any. -/
theorem pivot?_cases (cols : List (Column α)) :
    (∃ pivot, pivot? cols = some pivot ∧ pivot ∈ cols ∧ (pivot.low == -Scalar.inf) = true) ∨
      pivot? cols = none ∧ ∀ c ∈ cols, (c.low == -Scalar.inf) = false := by
  induction cols using List.reverseRecOn with
  | nil => exact Or.inr ⟨rfl, fun _ h => absurd h List.not_mem_nil⟩
  | append_singleton rest c ih =>
    have hlast : c ∈ rest ++ [c] := List.mem_append_right _ (List.mem_singleton_self c)
    rw [pivot?_append_singleton]
    split
    · rename_i hlow
      refine Or.inl ⟨_, rfl, ?_⟩
      rcases ih with ⟨p, hp, hmem, hlow'⟩ | ⟨hnone, -⟩
      · rw [hp, Option.elim_some]
        split
        · exact ⟨hlast, hlow⟩
        · exact ⟨List.mem_append_left _ hmem, hlow'⟩
      · rw [hnone]
        exact ⟨hlast, hlow⟩
    · rename_i hlow
      rcases ih with ⟨p, hp, hmem, hlow'⟩ | ⟨hnone, hall⟩
      · exact Or.inl ⟨p, hp, List.mem_append_left _ hmem, hlow'⟩
      · refine Or.inr ⟨hnone, List.forall_mem_append.mpr ⟨hall, ?_⟩⟩
        exact List.forall_mem_singleton.mpr (Bool.eq_false_iff.mpr hlow)

/-- What is filled in are some of the columns: the first ones go to their highest activities, and
the one after them takes what is left. -/
theorem mem_fill {slack : α} {cl : Column α × Level α} (h : cl ∈ fill slack cols) :
    cl.1 ∈ cols ∧ (cl.2 = .high ∨ ∃ slack' : α, cl.2 = .at (cl.1.low + slack') ∧ ¬slack' ≤ 0.0 ∧
      ¬cl.1.high - cl.1.low ≤ slack') := by
  induction cols generalizing slack with
  | nil => cases h
  | cons c rest ih =>
    unfold fill at h
    split at h
    · cases h
    · rename_i hslack
      dsimp only at h
      split at h
      · rcases List.mem_cons.mp h with rfl | hmem
        · exact ⟨List.mem_cons_self, Or.inl rfl⟩
        · obtain ⟨hcol, hlevel⟩ := ih hmem
          exact ⟨List.mem_cons_of_mem c hcol, hlevel⟩
      · rename_i hroom
        rw [List.mem_singleton.mp h]
        exact ⟨List.mem_cons_self, Or.inr ⟨slack, rfl, hslack, hroom⟩⟩

/-- All that is filled in goes to its highest activity, but for one column at most. -/
theorem high_of_mem_fill (slack : α) (cols : List (Column α)) :
    ∃ k, ∀ cl ∈ fill slack cols, cl.2 = .high ∨ cl.1.var = k := by
  induction cols generalizing slack with
  | nil => exact ⟨0, fun _ hcl => absurd hcl List.not_mem_nil⟩
  | cons c rest ih =>
    unfold fill
    split
    · exact ⟨0, fun _ hcl => absurd hcl List.not_mem_nil⟩
    · dsimp only
      split
      · obtain ⟨k, hk⟩ := ih (slack - (c.high - c.low))
        exact ⟨k, List.forall_mem_cons.mpr ⟨Or.inl rfl, hk⟩⟩
      · exact ⟨c.var, List.forall_mem_singleton.mpr (Or.inr rfl)⟩

/-- Only a positive slack is filled in. -/
theorem not_le_of_mem_fill {slack : α} {cl : Column α × Level α} (h : cl ∈ fill slack cols) :
    ¬slack ≤ 0.0 := by
  intro hslack
  cases cols with
  | nil => cases h
  | cons c rest =>
    rw [fill, if_pos hslack] at h
    cases h

end

/-! ## Sorting by gain -/

section

variable {d a lo : Nat → ℚ} {levels : List (Column Exact × Level Exact)}

/-- The order in which variables are raised, by rational gains. -/
def leads (gain : Nat → ℚ) (c e : Column Exact) : Bool :=
  if gain e.var < gain c.var then true
  else if gain c.var < gain e.var then false else decide (c.var ≤ e.var)

theorem leads_iff {gain : Nat → ℚ} {c e : Column Exact} : leads gain c e = true ↔
    gain e.var < gain c.var ∨ gain e.var = gain c.var ∧ c.var ≤ e.var := by
  unfold leads
  split_ifs with hlt hgt
  · exact iff_of_true rfl (Or.inl hlt)
  · exact iff_of_false not_false fun h => h.elim hlt fun he => hgt.ne' he.1
  · have heq := le_antisymm (not_lt.mp hgt) (not_lt.mp hlt)
    rw [decide_eq_true_iff]
    exact ⟨fun h => Or.inr ⟨heq, h⟩, fun h => h.elim (fun h => absurd h hlt) fun h => h.2⟩

theorem before_eq_leads {c e : Column Exact} (hc : c.InRow d a lo) (he : e.InRow d a lo) :
    c.before e = leads (fun j => -d j / a j) c e := by
  unfold Column.before leads
  rw [hc.gain_eq, he.gain_eq]
  simp only [ofRat_lt]

theorem nodup_risers {α : Type} [Scalar α] {levels : List (Column α × Level α)}
    (h : (levels.map fun cl => cl.1.var).Nodup) :
    ((risers levels).map Column.var).Nodup := by
  unfold risers
  refine (((List.mergeSort_perm _ _).map Column.var).nodup_iff).mpr ?_
  rw [List.map_map]
  exact h.sublist (List.filter_sublist.map _)

/-- Variables are raised in the order of their gains. -/
theorem pairwise_risers (h : ∀ c ∈ risers levels, c.InRow d a lo) :
    (risers levels).Pairwise fun c e => -d e.var / a e.var ≤ -d c.var / a c.var := by
  let gain : Nat → ℚ := fun j => -d j / a j
  let raised := (levels.filter fun (c, level) => c.canRise level).map Prod.fst
  have hmem : ∀ c ∈ raised, c.InRow d a lo := fun c hc => h c (List.mem_mergeSort.mpr hc)
  -- the comparison of columns of a row is one of rationals, with ties by variable
  have hsort : raised.mergeSort Column.before = raised.mergeSort (leads gain) := by
    have hmap := List.map_mergeSort (f := id) fun c hc e he =>
      before_eq_leads (hmem c hc) (hmem e he)
    rwa [List.map_id, List.map_id] at hmap
  have hsorted : (raised.mergeSort (leads gain)).Pairwise fun c e => leads gain c e = true := by
    refine List.pairwise_mergeSort (fun c e k hce hek => ?_) (fun c e => ?_) raised
    · rw [leads_iff] at hce hek ⊢
      rcases hce with hce | ⟨hce, hle⟩ <;> rcases hek with hek | ⟨hek, hle'⟩
      · exact Or.inl (hek.trans hce)
      · exact Or.inl (hek ▸ hce)
      · exact Or.inl (hce ▸ hek)
      · exact Or.inr ⟨hek.trans hce, hle.trans hle'⟩
    · rw [Bool.or_eq_true, leads_iff, leads_iff]
      rcases lt_trichotomy (gain e.var) (gain c.var) with hlt | heq | hgt
      · exact Or.inl (Or.inl hlt)
      · rcases le_total c.var e.var with hle | hle
        · exact Or.inl (Or.inr ⟨heq, hle⟩)
        · exact Or.inr (Or.inr ⟨heq.symm, hle⟩)
      · exact Or.inr (Or.inl hgt)
  show (raised.mergeSort Column.before).Pairwise _
  rw [hsort]
  refine hsorted.imp fun {c e} hce => ?_
  rcases leads_iff.mp hce with hlt | ⟨heq, -⟩
  · exact hlt.le
  · exact heq.le

end

/-! ## Whole activities -/

/-- The whole numbers among the rationals. -/
def wholes : Subring ℚ := (Int.castRingHom ℚ).range

theorem mem_wholes {q : ℚ} : q ∈ wholes ↔ ∃ k : ℤ, q = k := by
  constructor
  · rintro ⟨k, rfl⟩
    exact ⟨k, rfl⟩
  · rintro ⟨k, rfl⟩
    exact ⟨k, rfl⟩

/-- Whether the ends of the ranges of activities are whole, as far as they are finite. -/
structure WholeEnds (lo : Nat → ℚ) (cols : List (Column Exact)) : Prop where
  low : ∀ c ∈ cols, lo c.var ∈ wholes
  high : ∀ c ∈ cols, ∀ hi : ℚ, c.high = .ofRat hi → hi ∈ wholes

theorem WholeEnds.of_subset {lo : Nat → ℚ} {cols cols' : List (Column Exact)}
    (h : WholeEnds lo cols) (hsub : cols' ⊆ cols) : WholeEnds lo cols' :=
  ⟨fun c hc => h.low c (hsub hc), fun c hc => h.high c (hsub hc)⟩

/-- A whole slack fills columns with whole ends to whole activities. -/
theorem whole_of_mem_fill {d a lo : Nat → ℚ} {cols : List (Column Exact)}
    (hrow : ∀ c ∈ cols, c.InRow d a lo) (hends : WholeEnds lo cols) {slack : ℚ}
    (hslack : slack ∈ wholes) {cl : Column Exact × Level Exact}
    (hcl : cl ∈ fill (.ofRat slack) cols) :
    ∃ y ∈ wholes, cl.1.activity cl.2 = .ofRat y := by
  induction cols generalizing slack with
  | nil => cases hcl
  | cons c rest ih =>
    have hc := hrow c List.mem_cons_self
    have hlow := hends.low c List.mem_cons_self
    rw [fill] at hcl
    split at hcl
    · cases hcl
    · dsimp only at hcl
      split at hcl
      · rename_i hroom
        obtain ⟨hi, hhi, -⟩ := hc.room_le_iff.mp hroom
        have hhigh := hends.high c List.mem_cons_self hi hhi
        rcases List.mem_cons.mp hcl with rfl | hcl
        · exact ⟨hi, hhigh, hhi⟩
        -- what is left of the slack is whole again
        · rw [hhi, hc.low, ofRat_sub, ofRat_sub] at hcl
          exact ih (fun e he => hrow e (List.mem_cons_of_mem c he))
            (hends.of_subset (List.subset_cons_self c rest))
            (wholes.sub_mem hslack (wholes.sub_mem hhigh hlow)) hcl
      · rw [List.mem_singleton] at hcl
        refine ⟨lo c.var + slack, wholes.add_mem hlow hslack, ?_⟩
        rw [hcl]
        show c.low + .ofRat slack = _
        rw [hc.low, ofRat_add]

/-! ## Ends and insides of ranges -/

/-- Whether an activity is an end of the range of a column, or zero. -/
def Column.AtEnd (c : Column Exact) (y : ℚ) : Prop := c.low = .ofRat y ∨ c.high = .ofRat y ∨ y = 0

/-- Whether an activity is strictly between the ends of the range of a column. -/
def Column.Inside (c : Column Exact) (y : ℚ) : Prop := c.low < .ofRat y ∧ .ofRat y < c.high

/-- Activities that are at ends of their ranges or zero, all but one at most. That one is inside its
range, and the activities together are then the right-hand side. -/
def Cornered (b : ℚ) (cols : List (Column Exact)) (y : Nat → ℚ) : Prop :=
  ∃ k, ∀ c ∈ cols, c.AtEnd (y c.var) ∨
    c.var = k ∧ c.Inside (y c.var) ∧ (cols.map fun c => y c.var).sum = b

/-- Inside a range activity can be taken on. -/
theorem Column.Inside.exists_within_gt {c : Column Exact} {y : ℚ} (h : c.Inside y) :
    ∃ y', y < y' ∧ c.Within y' := by
  obtain ⟨hlow, hhigh⟩ := h
  unfold Column.Within
  cases hhi : c.high with
  | ofRat hi =>
    rw [hhi, ofRat_lt] at hhigh
    exact ⟨hi, hhigh, Exact.le_trans (Exact.le_of_lt hlow) ((ofRat_le _ _).mpr hhigh.le),
      (ofRat_le _ _).mpr le_rfl⟩
  | posInf =>
    refine ⟨y + 1, lt_add_one y, ?_, ofRat_le_posInf _⟩
    exact Exact.le_trans (Exact.le_of_lt hlow) ((ofRat_le _ _).mpr (lt_add_one y).le)
  | negInf =>
    rw [hhi] at hhigh
    exact absurd (Exact.le_of_lt hhigh) (not_ofRat_le_negInf _)
  | nan =>
    rw [hhi] at hhigh
    exact absurd hhigh (not_lt_nan _)

/-- A column that gains is not cheapest inside its range when activity costs nothing. -/
theorem Column.Inside.not_cheapest {c : Column Exact} {gain y : ℚ} (h : c.Inside y)
    (hgain : 0 < gain) : ¬c.Cheapest 0 gain y := by
  intro hcheapest
  obtain ⟨y', hlt, hwithin⟩ := h.exists_within_gt
  have hle := hcheapest y' hwithin
  have hmore := mul_lt_mul_of_pos_left hlt hgain
  linarith

/-- A slack that does not take all of the room ends inside the range. -/
theorem Column.InRow.inside_of_no_room {d a lo : Nat → ℚ} {c : Column Exact} (h : c.InRow d a lo)
    {slack : ℚ} (hs : 0 < slack) (hroom : ¬c.high - c.low ≤ .ofRat slack) :
    c.Inside (lo c.var + slack) := by
  constructor
  · rw [h.low, ofRat_lt]
    exact lt_add_of_pos_right _ hs
  · rw [h.room_le_iff] at hroom
    rcases h.high_cases with ⟨hi, hhi⟩ | hhi
    · rw [hhi, ofRat_lt]
      by_contra hle
      exact hroom ⟨hi, hhi, by linarith⟩
    · rw [hhi]
      exact ofRat_lt_posInf _

/-- What a fill comes to is at an end of its range, but for one column at most. That one takes all
that is left of the slack: it gains, so while slack is left it is not left inside its range. -/
theorem Filled.atEnd_or_inside {d a lo y : Nat → ℚ} {slack rest price : ℚ}
    {cols : List (Column Exact)} (hrow : ∀ c ∈ cols, c.InRow d a lo)
    (hnodup : (cols.map Column.var).Nodup) (hgain : ∀ c ∈ cols, 0 < -d c.var / a c.var)
    (h : Filled d a lo slack cols y rest price) :
    ∃ k, ∀ c ∈ cols, c.AtEnd (y c.var) ∨
      c.var = k ∧ c.Inside (y c.var) ∧ rest = 0 ∧ 0 < slack := by
  obtain ⟨k, hk⟩ := high_of_mem_fill (.ofRat slack) cols
  refine ⟨k, fun c hc => ?_⟩
  by_cases hplaced : ∀ cl ∈ fill (.ofRat slack) cols, cl.1.var ≠ c.var
  · rw [h.unplaced c.var hplaced]
    exact Or.inl (Or.inl (hrow c hc).low)
  · push Not at hplaced
    obtain ⟨⟨e, level⟩, hcl, hvar⟩ := hplaced
    obtain ⟨he, hactivity⟩ := h.placed _ hcl
    obtain rfl : e = c := List.inj_on_of_nodup_map hnodup he hc hvar
    have hhigh : level = .high → e.AtEnd (y e.var) := fun hlevel => by
      rw [hlevel] at hactivity
      exact Or.inr (Or.inl hactivity)
    rcases (mem_fill hcl).2 with hlevel | ⟨slack', hlevel, hpos, hroom⟩
    · exact Or.inl (hhigh hlevel)
    rcases hk _ hcl with hhighest | hlast
    · exact Or.inl (hhigh hhighest)
    · rw [show level = _ from hlevel] at hactivity
      obtain ⟨s, rfl, hs⟩ : ∃ s, slack' = .ofRat s ∧ lo e.var + s = y e.var := by
        have hsum : e.low + slack' = .ofRat (y e.var) := hactivity
        rw [(hrow e hc).low] at hsum
        cases slack' with
        | ofRat s =>
          rw [ofRat_add] at hsum
          exact ⟨s, rfl, Exact.ofRat.inj hsum⟩
        | posInf | negInf | nan => cases hsum
      rw [zero_eq, ofRat_le, not_le] at hpos
      have hinside := (hrow e hc).inside_of_no_room hpos hroom
      rw [hs] at hinside
      refine Or.inr ⟨hlast, hinside, h.tight.resolve_left fun hprice => ?_, ?_⟩
      · refine hinside.not_cheapest (hgain e hc) ?_
        rw [← hprice]
        exact h.cheapest e hc
      · have hslack := not_le_of_mem_fill hcl
        rwa [zero_eq, ofRat_le, not_le] at hslack

/-! ## Columns that all have a lowest activity -/

theorem boundTolerance_eq : (boundTolerance : Exact) = .ofRat (1 / 10 ^ 9) := by
  show ofRat _ = _
  congr 1
  norm_num

/-- How far above the right-hand side an activity may be. -/
def allowance (b : ℚ) : ℚ := 1 / 10 ^ 9 * (1 + |b|)

theorem allowance_nonneg (b : ℚ) : 0 ≤ allowance b :=
  mul_nonneg (by norm_num) (by linarith [abs_nonneg b])

/-- The allowance, as it is said of a right-hand side. -/
theorem ofRat_allowance (b : ℚ) :
    (1e-9 : Exact) * (1.0 + Scalar.abs (.ofRat b)) = .ofRat (allowance b) := by
  show boundTolerance * _ = _
  rw [boundTolerance_eq, one_eq, abs_ofRat, ofRat_add, ofRat_mul]
  rfl

/-- Activities `y` of the columns of a row, with a price per unit that certifies them. -/
structure Placed (d a lo : Nat → ℚ) (b : ℚ) (cols : List (Column Exact)) (y : Nat → ℚ)
    (price : ℚ) : Prop where
  within : ∀ c ∈ cols, c.Within (y c.var)
  cheapest : ∀ c ∈ cols, c.Cheapest price (-d c.var / a c.var) (y c.var)
  price_nonneg : 0 ≤ price
  total_le : (cols.map fun c => y c.var).sum ≤ b + allowance b
  tight : price = 0 ∨ b ≤ (cols.map fun c => y c.var).sum
  whole : WholeEnds lo cols → b ∈ wholes → ∀ c ∈ cols, y c.var ∈ wholes

section

variable {d a lo f : Nat → ℚ} {b : ℚ} {n : Nat} {cols : List (Column Exact)}

theorem pivot?_eq_none (hrow : ∀ c ∈ cols, c.InRow d a lo) : pivot? cols = none := by
  rcases pivot?_cases cols with ⟨pivot, -, hmem, hlow⟩ | ⟨hnone, -⟩
  · rw [(hrow pivot hmem).low] at hlow
    exact absurd hlow Bool.false_ne_true
  · exact hnone

theorem rowActivity_low (hrow : ∀ c ∈ cols, c.InRow d a lo) :
    rowActivity (cols.map fun c => (c, Level.low)) = .ofRat (cols.map fun c => lo c.var).sum := by
  unfold rowActivity
  rw [List.map_map, ← sum_map]
  congr 2
  exact List.map_congr_left fun c hc => (hrow c hc).low

theorem ofPoint_vector : Placement.ofPoint (vector n f) = .solved (vector n f) := by
  unfold Placement.ofPoint
  have hfinite : (vector n f).any (!Scalar.isFinite ·) = false := by
    rw [Array.any_eq_false']
    intro v hv
    rw [isFinite_of_mem_vector hv]
    exact Bool.false_ne_true
  rw [hfinite]
  rfl

/-- The slack that the lowest activities leave, and the point at the lowest activities. -/
theorem solveBounded_eq (hrow : ∀ c ∈ cols, c.InRow d a lo) :
    solveBounded (.ofRat b) cols (vector n f) =
      if b - (cols.map fun c => lo c.var).sum < -allowance b then .infeasible
      else
        .ofPoint (write (write (vector n f) (cols.map fun c => (c, Level.low)))
          (fill (.ofRat (max (b - (cols.map fun c => lo c.var).sum) 0))
            (risers (cols.map fun c => (c, Level.low))))) := by
  have hbound : -boundTolerance * (1.0 + Scalar.abs (Exact.ofRat b)) = .ofRat (-allowance b) := by
    rw [boundTolerance_eq, neg_ofRat, one_eq, abs_ofRat, ofRat_add, ofRat_mul, neg_mul]
    rfl
  unfold solveBounded
  dsimp only
  rw [rowActivity_low hrow, hbound, ofRat_sub, zero_eq, maxNum_ofRat, write_append]
  simp only [ofRat_lt]

/-- The columns that are raised from their lowest activities. -/
theorem mem_risers_low (hrow : ∀ c ∈ cols, c.InRow d a lo) {c : Column Exact} :
    c ∈ risers (cols.map fun c => (c, Level.low)) ↔
      c ∈ cols ∧ 0 < -d c.var / a c.var ∧ c.low < c.high := by
  have hrise : c ∈ cols → (c.canRise .low = true ↔ 0 < -d c.var / a c.var ∧ c.low < c.high) := by
    intro hc
    unfold Column.canRise
    rw [(hrow c hc).gain_eq, Bool.and_eq_true, decide_eq_true_iff, decide_eq_true_iff, zero_eq,
      ofRat_lt]
  rw [mem_risers_map]
  exact and_congr_right hrise

theorem sum_map_filter_of_eq_zero {ι : Type} {l : List ι} {p : ι → Bool} {g : ι → ℚ}
    (h : ∀ i ∈ l, p i = false → g i = 0) : ((l.filter p).map g).sum = (l.map g).sum := by
  induction l with
  | nil => rfl
  | cons i rest ih =>
    have hrest := ih fun k hk => h k (List.mem_cons_of_mem i hk)
    cases hp : p i with
    | true => rw [List.filter_cons_of_pos hp, List.map_cons, List.map_cons, List.sum_cons,
        List.sum_cons, hrest]
    | false =>
      rw [List.filter_cons_of_neg (by rw [hp]; exact Bool.false_ne_true), List.map_cons,
        List.sum_cons, hrest, h i List.mem_cons_self hp, zero_add]

/-- What is not raised adds nothing to what activities are above others. -/
theorem sum_risers {α : Type} [Scalar α] {levels : List (Column α × Level α)} {y lo : Nat → ℚ}
    (hnodup : (levels.map fun cl => cl.1.var).Nodup)
    (h : ∀ j, (∀ c ∈ risers levels, c.var ≠ j) → y j = lo j) :
    ((risers levels).map fun c => y c.var - lo c.var).sum =
      (levels.map fun cl => y cl.1.var - lo cl.1.var).sum := by
  have hperm : (risers levels).Perm
      ((levels.filter fun cl => cl.1.canRise cl.2).map Prod.fst) := List.mergeSort_perm _ _
  rw [(hperm.map _).sum_eq, List.map_map]
  refine sum_map_filter_of_eq_zero fun cl hcl hcan => ?_
  refine sub_eq_zero.mpr (h cl.1.var fun c hc hvar => ?_)
  obtain ⟨level, hlevel, hrise⟩ := mem_risers.mp hc
  obtain rfl := List.inj_on_of_nodup_map hnodup hlevel hcl hvar
  exact Bool.false_ne_true (hcan.symm.trans hrise)

section

variable {slack rest price : ℚ} {y : Nat → ℚ}

/-- A column that is not raised keeps its lowest activity. -/
theorem Filled.eq_low (hnodup : (cols.map Column.var).Nodup) {raised : List (Column Exact)}
    (h : Filled d a lo slack raised y rest price) (hsub : raised ⊆ cols) {c : Column Exact}
    (hc : c ∈ cols) (hraised : c ∉ raised) : y c.var = lo c.var := by
  refine h.unplaced c.var fun cl hcl hvar => hraised ?_
  have hmem := (h.placed cl hcl).1
  rw [← List.inj_on_of_nodup_map hnodup (hsub hmem) hc hvar]
  exact hmem

/-- What is raised from levels is what the fill takes of the slack. -/
theorem Filled.sum_raised {levels : List (Column Exact × Level Exact)}
    (hnodup : (levels.map fun cl => cl.1.var).Nodup)
    (h : Filled d a lo slack (risers levels) y rest price) :
    (levels.map fun cl => y cl.1.var - lo cl.1.var).sum = slack - rest := by
  have htotal := h.total
  rw [sum_risers hnodup fun j hj => h.unplaced j fun cl hcl => hj cl.1 (h.placed cl hcl).1]
    at htotal
  linarith

/-- What is raised is the whole difference to the lowest activities. -/
theorem Filled.sum_eq (hnodup : (cols.map Column.var).Nodup)
    (h : Filled d a lo slack (risers (cols.map fun c => (c, Level.low))) y rest price) :
    (cols.map fun c => y c.var).sum = (cols.map fun c => lo c.var).sum + slack - rest := by
  have hraised := h.sum_raised (by rwa [List.map_map])
  rw [List.map_map] at hraised
  have hadd : (cols.map fun c => y c.var - lo c.var).sum + (cols.map fun c => lo c.var).sum =
      (cols.map fun c => y c.var).sum := by
    rw [← List.sum_map_add]
    simp only [sub_add_cancel]
  have hsum : (cols.map fun c => y c.var - lo c.var).sum = slack - rest := hraised
  linarith

/-- Every column takes an activity that it can take, and one that is cheapest at the price. -/
theorem Filled.within_and_cheapest (hrow : ∀ c ∈ cols, c.InRow d a lo)
    (hnodup : (cols.map Column.var).Nodup)
    (h : Filled d a lo slack (risers (cols.map fun c => (c, Level.low))) y rest price)
    {c : Column Exact} (hc : c ∈ cols) :
    c.Within (y c.var) ∧ c.Cheapest price (-d c.var / a c.var) (y c.var) := by
  by_cases hraised : c ∈ risers (cols.map fun c => (c, Level.low))
  · exact ⟨h.within c hraised, h.cheapest c hraised⟩
  · rw [h.eq_low hnodup (fun e he => ((mem_risers_low hrow).mp he).1) hc hraised]
    refine ⟨(hrow c hc).within_low, ?_⟩
    -- it was left at its lowest activity for want of a gain or for want of room
    rw [mem_risers_low hrow, not_and, not_and_or, not_lt] at hraised
    rcases hraised hc with hgain | hroom
    · exact (hrow c hc).cheapest_low (hgain.trans h.price_nonneg)
    · exact (hrow c hc).cheapest_of_no_room hroom _ _

/-- What whole lowest activities leave of a whole right-hand side is whole. -/
theorem whole_slack (hends : WholeEnds lo cols) (hb : b ∈ wholes) :
    max (b - (cols.map fun c => lo c.var).sum) 0 ∈ wholes := by
  have htotal : (cols.map fun c => lo c.var).sum ∈ wholes := by
    refine wholes.list_sum_mem fun q hq => ?_
    obtain ⟨c, hc, rfl⟩ := List.mem_map.mp hq
    exact hends.low c hc
  rcases max_choice (b - (cols.map fun c => lo c.var).sum) 0 with hmax | hmax
  · rw [hmax]
    exact wholes.sub_mem hb htotal
  · rw [hmax]
    exact wholes.zero_mem

/-- A whole slack raises columns with whole ends to whole activities. -/
theorem Filled.whole_of_mem {raised : List (Column Exact)} (hrow : ∀ c ∈ raised, c.InRow d a lo)
    (h : Filled d a lo slack raised y rest price) (hends : WholeEnds lo raised)
    (hslack : slack ∈ wholes) {c : Column Exact} (hc : c ∈ raised) : y c.var ∈ wholes := by
  by_cases hplaced : ∀ cl ∈ fill (.ofRat slack) raised, cl.1.var ≠ c.var
  · rw [h.unplaced c.var hplaced]
    exact hends.low c hc
  · push Not at hplaced
    obtain ⟨cl, hcl, hvar⟩ := hplaced
    obtain ⟨q, hq, hact⟩ := whole_of_mem_fill hrow hends hslack hcl
    rw [(h.placed cl hcl).2, hvar] at hact
    rw [Exact.ofRat.inj hact]
    exact hq

/-- Among columns with whole ends those that are not raised have whole activities as well. -/
theorem Filled.whole (hrow : ∀ c ∈ cols, c.InRow d a lo) (hnodup : (cols.map Column.var).Nodup)
    (h : Filled d a lo slack (risers (cols.map fun c => (c, Level.low))) y rest price)
    (hends : WholeEnds lo cols) (hslack : slack ∈ wholes) {c : Column Exact} (hc : c ∈ cols) :
    y c.var ∈ wholes := by
  have hsub : risers (cols.map fun c => (c, Level.low)) ⊆ cols :=
    fun e he => ((mem_risers_low hrow).mp he).1
  by_cases hraised : c ∈ risers (cols.map fun c => (c, Level.low))
  · exact h.whole_of_mem (fun e he => hrow e (hsub he)) (hends.of_subset hsub) hslack hraised
  · rw [h.eq_low hnodup hsub hc hraised]
    exact hends.low c hc

/-- The activities that the lowest ones are raised to are certified. -/
theorem placed_of_filled (hrow : ∀ c ∈ cols, c.InRow d a lo)
    (hnodup : (cols.map Column.var).Nodup)
    (hslack : ¬b - (cols.map fun c => lo c.var).sum < -allowance b)
    (h : Filled d a lo (max (b - (cols.map fun c => lo c.var).sum) 0)
      (risers (cols.map fun c => (c, Level.low))) y rest price) :
    Placed d a lo b cols y price where
  within _ hc := (h.within_and_cheapest hrow hnodup hc).1
  cheapest _ hc := (h.within_and_cheapest hrow hnodup hc).2
  price_nonneg := h.price_nonneg
  total_le := by
    have hsum := h.sum_eq hnodup
    have hrest := h.rest_nonneg
    have hallowance := allowance_nonneg b
    rcases max_cases (b - (cols.map fun c => lo c.var).sum) 0 with ⟨hmax, -⟩ | ⟨hmax, -⟩
    · rw [hmax] at hsum
      linarith
    · rw [hmax] at hsum
      linarith
  tight := by
    rcases h.tight with hprice | hrest
    · exact Or.inl hprice
    · have hsum := h.sum_eq hnodup
      have hmax := le_max_left (b - (cols.map fun c => lo c.var).sum) 0
      exact Or.inr (by linarith)
  whole hends hb _ hc := h.whole hrow hnodup hends (whole_slack hends hb) hc

/-- Of the activities that the lowest ones are raised to, one at most is inside its range. -/
theorem cornered_of_filled (hrow : ∀ c ∈ cols, c.InRow d a lo)
    (hnodup : (cols.map Column.var).Nodup)
    (h : Filled d a lo (max (b - (cols.map fun c => lo c.var).sum) 0)
      (risers (cols.map fun c => (c, Level.low))) y rest price) : Cornered b cols y := by
  have hmem : ∀ c ∈ risers (cols.map fun c => (c, Level.low)), c ∈ cols ∧ 0 < -d c.var / a c.var :=
    fun c hc => ⟨((mem_risers_low hrow).mp hc).1, ((mem_risers_low hrow).mp hc).2.1⟩
  obtain ⟨k, hk⟩ := h.atEnd_or_inside (fun c hc => hrow c (hmem c hc).1)
    (nodup_risers (by rwa [List.map_map])) fun c hc => (hmem c hc).2
  refine ⟨k, fun c hc => ?_⟩
  by_cases hraised : c ∈ risers (cols.map fun c => (c, Level.low))
  · refine (hk c hraised).imp_right fun ⟨hvar, hinside, hrest, hpos⟩ => ⟨hvar, hinside, ?_⟩
    have hsum := h.sum_eq hnodup
    rw [hrest, max_eq_left ((lt_max_iff.mp hpos).resolve_right (lt_irrefl 0)).le] at hsum
    linarith
  · rw [h.eq_low hnodup (fun e he => (hmem e he).1) hc hraised]
    exact Or.inl (Or.inl (hrow c hc).low)

/-- The point that is written for the raised columns divides their activities by the factors. -/
theorem write_of_filled (hrow : ∀ c ∈ cols, c.InRow d a lo)
    (h : Filled d a lo slack (risers (cols.map fun c => (c, Level.low))) y rest price) :
    write (write (vector n f) (cols.map fun c => (c, Level.low)))
        (fill (.ofRat slack) (risers (cols.map fun c => (c, Level.low)))) =
      vector n fun j => if j ∈ cols.map Column.var then y j / a j else f j := by
  have hlow : ∀ cl ∈ cols.map fun c => (c, Level.low (α := Exact)),
      cl.1.value cl.2 = .ofRat (lo cl.1.var / a cl.1.var) := by
    intro cl hcl
    obtain ⟨c, hc, rfl⟩ := List.mem_map.mp hcl
    exact (hrow c hc).value_eq (hrow c hc).low
  have hfill : ∀ cl ∈ fill (.ofRat slack) (risers (cols.map fun c => (c, Level.low))),
      cl.1.value cl.2 = .ofRat (y cl.1.var / a cl.1.var) := by
    intro cl hcl
    obtain ⟨hmem, hact⟩ := h.placed cl hcl
    exact (hrow _ ((mem_risers_low hrow).mp hmem).1).value_eq hact
  rw [write_vector (v := fun j => lo j / a j) hlow, write_vector (v := fun j => y j / a j) hfill,
    List.map_map]
  refine vector_congr fun j _ => ?_
  split
  · rename_i hj
    obtain ⟨cl, hcl, rfl⟩ := List.mem_map.mp hj
    rw [if_pos (List.mem_map_of_mem ((mem_risers_low hrow).mp (h.placed cl hcl).1).1)]
  · -- what the fill does not write is still at its lowest activity
    rename_i hj
    have hsame : y j = lo j :=
      h.unplaced j fun cl hcl hvar => hj (List.mem_map.mpr ⟨cl, hcl, hvar⟩)
    rw [hsame]
    rfl

end

/-- Columns with a lowest activity are infeasible, or they come to activities that a price
certifies. -/
theorem solveBounded_cases (hrow : ∀ c ∈ cols, c.InRow d a lo)
    (hnodup : (cols.map Column.var).Nodup) (b : ℚ) :
    (b < (cols.map fun c => lo c.var).sum ∧
      ∀ n f, solveBounded (.ofRat b) cols (vector n f) = .infeasible) ∨
    ∃ y price, Placed d a lo b cols y price ∧ Cornered b cols y ∧
      ∀ n f, solveBounded (.ofRat b) cols (vector n f) = .solved (vector n fun j =>
        if j ∈ cols.map Column.var then y j / a j else f j) := by
  by_cases hslack : b - (cols.map fun c => lo c.var).sum < -allowance b
  · refine Or.inl ⟨?_, fun n f => ?_⟩
    · have hle := allowance_nonneg b
      linarith
    · rw [solveBounded_eq hrow, if_pos hslack]
  · have hraised : ∀ c ∈ risers (cols.map fun c => (c, Level.low)), c.InRow d a lo :=
      fun c hc => hrow c ((mem_risers_low hrow).mp hc).1
    have hnodup' : ((cols.map fun c => (c, Level.low (α := Exact))).map fun cl =>
        cl.1.var).Nodup := by
      rw [List.map_map]
      exact hnodup
    obtain ⟨y, rest, price, h⟩ := exists_filled hraised (nodup_risers hnodup')
      (pairwise_risers hraised) (fun c hc => ((mem_risers_low hrow).mp hc).2.1.le)
      (le_max_right (b - (cols.map fun c => lo c.var).sum) 0)
    refine Or.inr ⟨y, price, placed_of_filled hrow hnodup hslack h,
      cornered_of_filled hrow hnodup h, fun n f => ?_⟩
    rw [solveBounded_eq hrow, if_neg hslack, write_of_filled hrow h, ofPoint_vector]

end

end BranchBound.OneRow
