import BranchBound.Proofs.Branching
import BranchBound.Proofs.Vector

/-!
# Tightening

The bounds of a node laid over bounds of all variables, in exact arithmetic. A vector is within the
tightened bounds exactly if it is within the old ones and in the node's box
(`Node.tighten_tabulate`). Each tightened bound is an old one or a whole number (`Node.Moves`), so
whole bounds stay whole. If the variables of a node differ, each cut is laid over the bounds of its
own variable (`Node.exists_tighten_entries`).
-/

namespace BranchBound

open Scalar

/-! ## Greater and lesser of two numbers -/

namespace Exact

variable {a b v : Exact}

theorem maxNum_cases (a b : Exact) : maxNum a b = a ∨ maxNum a b = b := by
  unfold maxNum
  split_ifs
  · exact Or.inr rfl
  · exact Or.inl rfl
  · exact Or.inl rfl
  · exact Or.inr rfl

theorem minNum_cases (a b : Exact) : minNum a b = a ∨ minNum a b = b := by
  unfold minNum
  split_ifs
  · exact Or.inr rfl
  · exact Or.inl rfl
  · exact Or.inl rfl
  · exact Or.inr rfl

theorem maxNum_le_iff (ha : a ≠ .nan) (hb : b ≠ .nan) : maxNum a b ≤ v ↔ a ≤ v ∧ b ≤ v := by
  unfold maxNum
  rw [isNaN_eq_false_iff.mpr ha, isNaN_eq_false_iff.mpr hb, if_neg Bool.false_ne_true,
    if_neg Bool.false_ne_true]
  split
  · rename_i hlt
    exact ⟨fun h => ⟨h, Exact.le_trans (Exact.le_of_lt hlt) h⟩, fun h => h.1⟩
  · rename_i hlt
    exact ⟨fun h => ⟨Exact.le_trans (Exact.le_of_not_lt ha hb hlt) h, h⟩, fun h => h.2⟩

theorem le_minNum_iff (ha : a ≠ .nan) (hb : b ≠ .nan) : v ≤ minNum a b ↔ v ≤ a ∧ v ≤ b := by
  unfold minNum
  rw [isNaN_eq_false_iff.mpr ha, isNaN_eq_false_iff.mpr hb, if_neg Bool.false_ne_true,
    if_neg Bool.false_ne_true]
  split
  · rename_i hlt
    exact ⟨fun h => ⟨h, Exact.le_trans h (Exact.le_of_lt hlt)⟩, fun h => h.1⟩
  · rename_i hlt
    exact ⟨fun h => ⟨Exact.le_trans h (Exact.le_of_not_lt hb ha hlt), h⟩, fun h => h.2⟩

end Exact

/-! ## One cut -/

namespace Cut

variable {α : Type} [Scalar α]

/-- A lower bound with that of a cut laid over it. -/
def raise (c : Cut) (lower : α) : α :=
  match c.atLeast with
  | some b => maxNum lower (Scalar.ofInt b)
  | none => lower

/-- An upper bound with that of a cut laid over it. -/
def cap (c : Cut) (upper : α) : α :=
  match c.atMost with
  | some b => minNum upper (Scalar.ofInt b)
  | none => upper

theorem raise_cases (c : Cut) (v : Exact) : c.raise v = v ∨ ∃ k : ℤ, c.raise v = .ofRat k := by
  unfold raise
  cases c.atLeast with
  | none => exact Or.inl rfl
  | some b => exact (Exact.maxNum_cases v (.ofRat b)).imp id fun h => ⟨b, h⟩

theorem cap_cases (c : Cut) (v : Exact) : c.cap v = v ∨ ∃ k : ℤ, c.cap v = .ofRat k := by
  unfold cap
  cases c.atMost with
  | none => exact Or.inl rfl
  | some b => exact (Exact.minNum_cases v (.ofRat b)).imp id fun h => ⟨b, h⟩

/-- A cut laid over bounds leaves what was within them and what the cut allows. -/
theorem within_iff {c : Cut} {l u v : Exact} (hl : l ≠ .nan) (hu : u ≠ .nan) :
    (c.raise l ≤ v ∧ v ≤ c.cap u) ↔ (l ≤ v ∧ v ≤ u) ∧ c.Allows v := by
  have hlower : c.raise l ≤ v ↔ l ≤ v ∧ ∀ b, c.atLeast = some b → Scalar.ofInt b ≤ v := by
    unfold raise
    cases c.atLeast with
    | none => simp
    | some b =>
      rw [Exact.maxNum_le_iff hl (by simp)]
      simp
  have hupper : v ≤ c.cap u ↔ v ≤ u ∧ ∀ b, c.atMost = some b → v ≤ Scalar.ofInt b := by
    unfold cap
    cases c.atMost with
    | none => simp
    | some b =>
      rw [Exact.le_minNum_iff hu (by simp)]
      simp
  rw [hlower, hupper, and_and_and_comm]
  exact Iff.rfl

end Cut

/-! ## All cuts of a node -/

namespace Node

section

variable {α : Type} [Scalar α] {n : Nat}

theorem tightenAt_tabulate {l u : Nat → α} {var : Nat} {c : Cut} (hvar : var < n) :
    tightenAt (tabulate n l, tabulate n u) var c =
      .ok (tabulate n (Function.update l var (c.raise (l var))),
        tabulate n (Function.update u var (c.cap (u var)))) := by
  have hchange : ∀ (f : Nat → α) (g : α → α), change (α := α) (tabulate n f) var g =
      .ok (tabulate n (Function.update f var (g (f var)))) := fun f g =>
    change_eq_ok_iff.mpr ⟨f var, getElem?_tabulate_of_lt f hvar,
      (setIfInBounds_tabulate f var _).symm⟩
  unfold tightenAt Cut.raise Cut.cap
  dsimp only
  cases c.atLeast <;> cases c.atMost <;>
    simp only [hchange, bind, Except.bind, pure, Except.pure, Function.update_eq_self]

omit [Scalar α] in
theorem lt_of_mem_overrides {node : Node α} (hvars : ∀ var ∈ node.vars, var < n) :
    ∀ o ∈ node.overrides, o.1 < n := fun o ho =>
  hvars o.1 (Array.mem_toList_iff.mp (List.of_mem_zip (List.mem_filter.mp ho).1).1)

/-- A node's bounds are laid over those of all variables if the node is about these. -/
theorem exists_tighten {node : Node α} (hvars : ∀ var ∈ node.vars, var < n) (l u : Nat → α) :
    ∃ l' u', node.tighten (tabulate n l) (tabulate n u) = .ok (tabulate n l', tabulate n u') := by
  have hcuts := lt_of_mem_overrides hvars
  unfold tighten
  generalize node.overrides = cuts at hcuts
  induction cuts generalizing l u with
  | nil => exact ⟨l, u, rfl⟩
  | cons o rest ih =>
    rw [List.foldlM_cons]
    dsimp only
    rw [tightenAt_tabulate (hcuts o List.mem_cons_self)]
    exact ih _ _ fun e he => hcuts e (List.mem_cons_of_mem o he)

theorem raise_of_isFree {c : Cut} (h : c.isFree = true) (v : α) : c.raise v = v ∧ c.cap v = v := by
  unfold Cut.isFree at h
  rw [Bool.and_eq_true, Option.isNone_iff_eq_none, Option.isNone_iff_eq_none] at h
  unfold Cut.raise Cut.cap
  rw [h.1, h.2]
  exact ⟨rfl, rfl⟩

/-- Cuts of different variables are laid over the bounds of one variable each. -/
theorem exists_tightened_entries {cuts : List (Nat × Cut)} (hvars : ∀ o ∈ cuts, o.1 < n)
    (hnodup : (cuts.map Prod.fst).Nodup) (l u : Nat → α) :
    ∃ l' u', (cuts.filter fun (_, c) => !c.isFree).foldlM
        (fun bounds (var, c) => tightenAt bounds var c) (tabulate n l, tabulate n u) =
          .ok (tabulate n l', tabulate n u') ∧
      (∀ o ∈ cuts, l' o.1 = o.2.raise (l o.1) ∧ u' o.1 = o.2.cap (u o.1)) ∧
      ∀ j, j ∉ cuts.map Prod.fst → l' j = l j ∧ u' j = u j := by
  induction cuts generalizing l u with
  | nil => exact ⟨l, u, rfl, fun _ ho => absurd ho List.not_mem_nil, fun _ _ => ⟨rfl, rfl⟩⟩
  | cons o rest ih =>
    obtain ⟨hnew, hrest⟩ := List.nodup_cons.mp hnodup
    obtain ⟨l', u', hfold, hcut, hkept⟩ := ih (fun e he => hvars e (List.mem_cons_of_mem o he)) hrest
      (Function.update l o.1 (o.2.raise (l o.1))) (Function.update u o.1 (o.2.cap (u o.1)))
    refine ⟨l', u', ?_, List.forall_mem_cons.mpr ⟨?_, fun e he => ?_⟩, fun j hj => ?_⟩
    · by_cases hfree : o.2.isFree = true
      · -- a free cut is left out, and would change nothing
        rw [List.filter_cons_of_neg (by simp [hfree])]
        rwa [(raise_of_isFree hfree _).1, (raise_of_isFree hfree _).2, Function.update_eq_self,
          Function.update_eq_self] at hfold
      · rw [List.filter_cons_of_pos (by simpa using hfree), List.foldlM_cons]
        dsimp only
        rw [tightenAt_tabulate (hvars o List.mem_cons_self)]
        exact hfold
    · have hself := hkept o.1 hnew
      rwa [Function.update_self, Function.update_self] at hself
    · have hne : e.1 ≠ o.1 := fun heq => hnew (heq ▸ List.mem_map_of_mem he)
      have hother := hcut e he
      rwa [Function.update_of_ne hne, Function.update_of_ne hne] at hother
    · rw [List.map_cons, List.mem_cons, not_or] at hj
      have hother := hkept j hj.2
      rwa [Function.update_of_ne hj.1, Function.update_of_ne hj.1] at hother

/-- The tightened bounds of a node whose variables differ: each cut is laid over the bounds of its
variable, and the other bounds stay. -/
theorem exists_tighten_entries {node : Node α} (hvars : ∀ var ∈ node.vars, var < n)
    (hnodup : node.vars.toList.Nodup) (hsize : node.cuts.size = node.vars.size) (l u : Nat → α) :
    ∃ l' u', node.tighten (tabulate n l) (tabulate n u) = .ok (tabulate n l', tabulate n u') ∧
      (∀ (i var : Nat) (c : Cut), node.vars[i]? = some var → node.cuts[i]? = some c →
        l' var = c.raise (l var) ∧ u' var = c.cap (u var)) ∧
      ∀ j, j ∉ node.vars → l' j = l j ∧ u' j = u j := by
  have hfst : (node.vars.toList.zip node.cuts.toList).map Prod.fst = node.vars.toList :=
    List.map_fst_zip (by simp [hsize])
  have hknown : ∀ o ∈ node.vars.toList.zip node.cuts.toList, o.1 < n := fun o ho =>
    hvars o.1 (Array.mem_toList_iff.mp (List.of_mem_zip ho).1)
  obtain ⟨l', u', hfold, hcut, hkept⟩ := exists_tightened_entries hknown (by rwa [hfst]) l u
  refine ⟨l', u', hfold, fun i var c hvar hc => hcut (var, c) ?_, fun j hj => hkept j ?_⟩
  · refine List.mem_iff_getElem?.mpr ⟨i, List.getElem?_zip_eq_some.mpr ⟨?_, ?_⟩⟩
    · rwa [Array.getElem?_toList]
    · rwa [Array.getElem?_toList]
  · rwa [hfst, Array.mem_toList_iff]

/-- Whether a vector satisfies cuts at given indices. -/
theorem contains_tabulate_iff {node : Node α} {z : Nat → α} (hvars : ∀ var ∈ node.vars, var < n) :
    node.Contains (tabulate n z) ↔ ∀ o ∈ node.overrides, o.2.Allows (z o.1) := by
  have hmem : ∀ o : Nat × Cut, o ∈ node.vars.toList.zip node.cuts.toList ↔
      ∃ i : Nat, node.vars[i]? = some o.1 ∧ node.cuts[i]? = some o.2 := by
    intro o
    rw [List.mem_iff_getElem?]
    simp only [List.getElem?_zip_eq_some, Array.getElem?_toList]
  have hentry : ∀ {i var : Nat}, node.vars[i]? = some var →
      (tabulate n z)[var]? = some (z var) := fun hvar =>
    getElem?_tabulate_of_lt z (hvars _ (Array.mem_of_getElem? hvar))
  constructor
  · intro h o ho
    obtain ⟨i, hvar, hcut⟩ := (hmem o).mp (List.mem_filter.mp ho).1
    obtain ⟨v, hv, hallows⟩ := h i o.1 o.2 hvar hcut
    rw [hentry hvar] at hv
    rw [Option.some.inj hv]
    exact hallows
  · intro h i var c hvar hcut
    refine ⟨z var, hentry hvar, ?_⟩
    -- only cuts that are not free are among the overrides
    by_cases hfree : c.isFree = true
    · unfold Cut.isFree at hfree
      rw [Bool.and_eq_true, Option.isNone_iff_eq_none, Option.isNone_iff_eq_none] at hfree
      constructor
      · intro b hb
        rw [hfree.1] at hb
        cases hb
      · intro b hb
        rw [hfree.2] at hb
        cases hb
    · refine h (var, c) (List.mem_filter.mpr ⟨(hmem (var, c)).mpr ⟨i, hvar, hcut⟩, ?_⟩)
      show (!c.isFree) = true
      rw [Bool.not_eq_true] at hfree
      rw [hfree]
      rfl

end

/-- Each new bound is the old one or a whole number. -/
def Moves (f g : Nat → Exact) : Prop := ∀ j, g j = f j ∨ ∃ k : ℤ, g j = .ofRat k

namespace Moves

variable {f g h : Nat → Exact}

theorem refl (f : Nat → Exact) : Moves f f := fun _ => Or.inl rfl

theorem trans (hfg : Moves f g) (hgh : Moves g h) : Moves f h := by
  intro j
  rcases hgh j with hsame | hwhole
  · rw [hsame]
    exact hfg j
  · exact Or.inr hwhole

/-- Whole numbers do not take a bound to where it was not, unless that is finite. -/
theorem ne (hfg : Moves f g) {v : Exact} (hv : isFinite v = false) (hf : ∀ j, f j ≠ v) (j : Nat) :
    g j ≠ v := by
  rcases hfg j with hsame | ⟨k, hk⟩
  · rw [hsame]
    exact hf j
  · rw [hk]
    rintro rfl
    cases hv

theorem valid (hfg : Moves f g) (hf : ∀ j, f j ≠ .nan) (j : Nat) : g j ≠ .nan :=
  hfg.ne rfl hf j

theorem update {var : Nat} {v : Exact} (hv : v = f var ∨ ∃ k : ℤ, v = .ofRat k) :
    Moves f (Function.update f var v) := by
  intro j
  by_cases hj : j = var
  · rw [hj, Function.update_self]
    exact hv
  · exact Or.inl (Function.update_of_ne hj _ _)

end Moves

/-- A vector is within bounds over which one cut was laid if it was within them before and the cut
allows its value. -/
theorem within_update_iff {n var : Nat} {l u z : Nat → Exact} {c : Cut} (hvar : var < n)
    (hl : ∀ j, l j ≠ .nan) (hu : ∀ j, u j ≠ .nan) :
    (∀ j < n, Function.update l var (c.raise (l var)) j ≤ z j ∧
        z j ≤ Function.update u var (c.cap (u var)) j) ↔
      (∀ j < n, l j ≤ z j ∧ z j ≤ u j) ∧ c.Allows (z var) := by
  constructor
  · intro hz
    have hat := hz var hvar
    rw [Function.update_self, Function.update_self, Cut.within_iff (hl var) (hu var)] at hat
    refine ⟨fun j hj => ?_, hat.2⟩
    by_cases hjv : j = var
    · rw [hjv]
      exact hat.1
    · have hzj := hz j hj
      rwa [Function.update_of_ne hjv, Function.update_of_ne hjv] at hzj
  · rintro ⟨hz, hallows⟩ j hj
    by_cases hjv : j = var
    · rw [hjv, Function.update_self, Function.update_self, Cut.within_iff (hl var) (hu var)]
      exact ⟨hz var hvar, hallows⟩
    · rw [Function.update_of_ne hjv, Function.update_of_ne hjv]
      exact hz j hj

/-- Cuts laid over bounds leave the vectors that all of the cuts allow. -/
theorem exists_tightened {n : Nat} {l u : Nat → Exact} {cuts : List (Nat × Cut)}
    (hvars : ∀ o ∈ cuts, o.1 < n) (hl : ∀ j, l j ≠ .nan) (hu : ∀ j, u j ≠ .nan) :
    ∃ l' u', cuts.foldlM (fun bounds o => tightenAt bounds o.1 o.2)
        (tabulate n l, tabulate n u) = .ok (tabulate n l', tabulate n u') ∧
      Moves l l' ∧ Moves u u' ∧ ∀ z : Nat → Exact, (∀ j < n, l' j ≤ z j ∧ z j ≤ u' j) ↔
        (∀ j < n, l j ≤ z j ∧ z j ≤ u j) ∧ ∀ o ∈ cuts, o.2.Allows (z o.1) := by
  induction cuts generalizing l u with
  | nil =>
    exact ⟨l, u, rfl, Moves.refl l, Moves.refl u, fun z =>
      ⟨fun h => ⟨h, fun o ho => nomatch ho⟩, fun h => h.1⟩⟩
  | cons o rest ih =>
    have hvar : o.1 < n := hvars o List.mem_cons_self
    have hlower : Moves l _ := Moves.update (o.2.raise_cases (l o.1))
    have hupper : Moves u _ := Moves.update (o.2.cap_cases (u o.1))
    obtain ⟨l', u', hfold, hl', hu', hwithin⟩ :=
      ih (fun e he => hvars e (List.mem_cons_of_mem o he)) (hlower.valid hl) (hupper.valid hu)
    refine ⟨l', u', ?_, hlower.trans hl', hupper.trans hu', fun z => ?_⟩
    · rw [List.foldlM_cons, tightenAt_tabulate hvar]
      exact hfold
    · rw [hwithin, within_update_iff hvar hl hu, List.forall_mem_cons, and_assoc]

/-- The tightened bounds of a node leave the vectors that were within bounds and are in its box. -/
theorem tighten_tabulate {n : Nat} {l u : Nat → Exact} {node : Node Exact}
    (hvars : ∀ var ∈ node.vars, var < n) (hl : ∀ j, l j ≠ .nan) (hu : ∀ j, u j ≠ .nan) :
    ∃ l' u', node.tighten (tabulate n l) (tabulate n u) = .ok (tabulate n l', tabulate n u') ∧
      Moves l l' ∧ Moves u u' ∧ ∀ z : Nat → Exact, (∀ j < n, l' j ≤ z j ∧ z j ≤ u' j) ↔
        (∀ j < n, l j ≤ z j ∧ z j ≤ u j) ∧ node.Contains (tabulate n z) := by
  obtain ⟨l', u', htighten, hl', hu', hwithin⟩ :=
    exists_tightened (lt_of_mem_overrides hvars) hl hu
  refine ⟨l', u', htighten, hl', hu', fun z => ?_⟩
  rw [hwithin, contains_tabulate_iff hvars]

end Node

end BranchBound
