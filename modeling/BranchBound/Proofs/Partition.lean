import BranchBound.Proofs.Distance
import BranchBound.Proofs.Tightening

/-!
# Partition of a box by branching

Branching loses no whole point and keeps none twice, also where numbers are rounded
(`branching_partitions`). A node has all of the points between bounds over which its cuts are laid
(`Node.Covers`), and its two children have those that are at most the floor, and at least the
ceiling, of the value branched on (`covers_below_iff`, `covers_above_iff`).

Points are vectors of exact numbers, and they are compared with the values of bounds. So they need
not be vectors of the numbers that the program computes with, though these are among them.
-/

namespace BranchBound

open Scalar Lawful

/-! ## Choice of the first variable -/

section

variable {α : Type} [Scalar α] {c : Criteria α} {x : Array α}

/-- The values before the chosen one are not off by more than the tolerance. -/
theorem Criteria.firstFractional?_eq_append {vars : List (Nat × Nat)} {b : Branching α}
    (h : c.firstFractional? x vars = .ok (some b)) :
    ∃ before after, vars = before ++ (b.var, b.position) :: after ∧
      ∀ vp ∈ before, ∃ v, x[vp.1]? = some v ∧ ¬c.integrality < fractionality v := by
  induction vars with
  | nil => cases h
  | cons vp rest ih =>
    obtain ⟨v, hv, h⟩ := bind_eq_ok.mp h
    split at h
    · rw [← Option.some.inj (Except.ok.inj h)]
      exact ⟨[], rest, rfl, fun wp hwp => absurd hwp List.not_mem_nil⟩
    · rename_i hnear
      obtain ⟨before, after, rfl, hbefore⟩ := ih h
      refine ⟨vp :: before, after, rfl, List.forall_mem_cons.mpr ⟨?_, hbefore⟩⟩
      exact ⟨v, entry_eq_ok_iff.mp hv, hnear⟩

/-- A node branches on its first variable whose value is off by more than the tolerance. -/
theorem Criteria.branching?_first {node : Node α} {b : Branching α}
    (h : c.branching? x node = .ok (some b)) {i var : Nat} (hi : i < b.position)
    (hvar : node.vars[i]? = some var) :
    ∃ v, x[var]? = some v ∧ ¬c.integrality < fractionality v := by
  obtain ⟨before, after, hsplit, hbefore⟩ := firstFractional?_eq_append h
  have hentry : ∀ k : Nat, node.vars.toList.zipIdx[k]? = node.vars[k]?.map fun w => (w, k) := by
    intro k
    rw [List.getElem?_zipIdx, Array.getElem?_toList, Nat.zero_add]
  -- pairs carry their position, so what comes before is told by its position
  have hlength : b.position = before.length := by
    have hat := hentry before.length
    rw [hsplit, List.getElem?_append_right (Nat.le_refl _), Nat.sub_self,
      List.getElem?_cons_zero] at hat
    obtain ⟨w, -, hw⟩ := Option.map_eq_some_iff.mp hat.symm
    exact (congrArg Prod.snd hw).symm
  have hmem : (var, i) ∈ before := by
    have hat := hentry i
    rw [hsplit, List.getElem?_append_left (hlength ▸ hi), hvar] at hat
    exact List.mem_of_getElem? hat
  exact hbefore (var, i) hmem

end

/-! ## Cuts -/

section

variable {α : Type} [Scalar α] [Lawful α]

/-- A whole number that some number of the type stands for is not rounded. -/
theorem Lawful.value_ofInt_of_eq {n : ℤ} {a : α} (h : value a = .ofRat n) :
    value (Scalar.ofInt n : α) = .ofRat n :=
  (faithful_ofInt n).value_eq h (nomatch ·)

variable (α) in
/-- Whether an exact number is between the bounds of a cut, as numbers of the type. -/
def Cut.Spans (c : Cut) (w : Exact) : Prop :=
  (∀ b, c.atLeast = some b → value (Scalar.ofInt b : α) ≤ w) ∧
    ∀ b, c.atMost = some b → w ≤ value (Scalar.ofInt b : α)

namespace Cut

variable {c : Cut} {l u : α} {q : ℚ} {d : ℤ} {w : Exact}

theorem spans_value_iff {v : α} : c.Spans α (value v) ↔ c.Allows v := by
  unfold Spans Allows
  simp only [le_iff v, le_iff _ v]

/-- A cut laid over valid bounds leaves the numbers that were between them and that it spans. -/
theorem between_iff (hl : isNaN l = false) (hu : isNaN u = false) :
    (value (c.raise l) ≤ w ∧ w ≤ value (c.cap u)) ↔
      (value l ≤ w ∧ w ≤ value u) ∧ c.Spans α w := by
  have hvalid : ∀ b : ℤ, value (Scalar.ofInt b : α) ≠ .nan := fun b hb =>
    nomatch (faithful_ofInt (α := α) b).nan_iff.mp hb
  rw [isNaN_eq, Exact.isNaN_eq_false_iff] at hl hu
  have hlower : value (c.raise l) ≤ w ↔
      value l ≤ w ∧ ∀ b, c.atLeast = some b → value (Scalar.ofInt b : α) ≤ w := by
    unfold raise
    cases c.atLeast with
    | none => simp
    | some b => simp [value_maxNum, Exact.maxNum_le_iff hl (hvalid b)]
  have hupper : w ≤ value (c.cap u) ↔
      w ≤ value u ∧ ∀ b, c.atMost = some b → w ≤ value (Scalar.ofInt b : α) := by
    unfold cap
    cases c.atMost with
    | none => simp
    | some b => simp [value_minNum, Exact.le_minNum_iff hu (hvalid b)]
  rw [hlower, hupper, and_and_and_comm]
  exact Iff.rfl

/-- Below a number that it spans, a cut may have its upper bound replaced: the new one is the
tighter one. -/
theorem spans_atMost (hq : c.Spans α (.ofRat q)) (hd : value (Scalar.ofInt d : α) = .ofRat d)
    (hle : (d : ℚ) ≤ q) : ({ c with atMost := some d } : Cut).Spans α w ↔
      c.Spans α w ∧ w ≤ .ofRat d := by
  constructor
  · intro h
    have hw : w ≤ .ofRat d := hd ▸ h.2 d rfl
    refine ⟨⟨h.1, fun b hb => Exact.le_trans hw (Exact.le_trans ?_ (hq.2 b hb))⟩, hw⟩
    rwa [Exact.ofRat_le]
  · intro h
    refine ⟨h.1.1, fun b hb => ?_⟩
    rw [← Option.some.inj hb, hd]
    exact h.2

theorem spans_atLeast (hq : c.Spans α (.ofRat q)) (hd : value (Scalar.ofInt d : α) = .ofRat d)
    (hle : q ≤ d) : ({ c with atLeast := some d } : Cut).Spans α w ↔
      c.Spans α w ∧ .ofRat d ≤ w := by
  constructor
  · intro h
    have hw : .ofRat d ≤ w := hd ▸ h.1 d rfl
    refine ⟨⟨fun b hb => Exact.le_trans (Exact.le_trans (hq.1 b hb) ?_) hw, h.2⟩, hw⟩
    rwa [Exact.ofRat_le]
  · intro h
    refine ⟨fun b hb => ?_, h.1.2⟩
    rw [← Option.some.inj hb, hd]
    exact h.2

end Cut

/-! ## Points of a node -/

namespace Node

/-- Whether a vector lies in a node's box, with the cuts of the node laid over bounds of all
variables. -/
def Covers (node : Node α) (lower upper : Array α) (z : Nat → Exact) : Prop :=
  ∃ l u, node.tighten lower upper = .ok (l, u) ∧
    ∀ (j : Nat) (a b : α), l[j]? = some a → u[j]? = some b → value a ≤ z j ∧ z j ≤ value b

/-- Whether a point has its whole variables in the box of a node. -/
def Keeps (node : Node α) (lower upper x : Array α) : Prop :=
  ∀ l u, node.tighten lower upper = .ok (l, u) → ∀ var ∈ node.vars, ∀ v a b : α,
    x[var]? = some v → l[var]? = some a → u[var]? = some b → a ≤ v ∧ v ≤ b

/-- The variables of a node are different ones of the first `n`, each with one cut. -/
structure Proper (node : Node α) (n : Nat) : Prop where
  known : ∀ var ∈ node.vars, var < n
  nodup : node.vars.toList.Nodup
  size_cuts : node.cuts.size = node.vars.size

variable {node : Node α} {n : Nat} {f g : Nat → α} {z : Nat → Exact}

omit [Scalar α] [Lawful α] in
theorem Proper.recut (h : node.Proper n) {i : Nat} {c : Cut} {estimate : α} :
    (node.recut i c estimate).Proper n :=
  ⟨h.known, h.nodup, Array.size_setIfInBounds.trans h.size_cuts⟩

omit [Lawful α] in
/-- The bounds of a node can be laid over those of all variables. -/
theorem Proper.exists_tighten (h : node.Proper n) {lower upper : Array α} (hlower : lower.size = n)
    (hupper : upper.size = n) : ∃ l u, node.tighten lower upper = .ok (l, u) := by
  obtain ⟨f, rfl⟩ := exists_eq_tabulate hlower 0.0
  obtain ⟨g, rfl⟩ := exists_eq_tabulate hupper 0.0
  obtain ⟨l, u, htighten, -⟩ := exists_tighten_entries h.known h.nodup h.size_cuts f g
  exact ⟨_, _, htighten⟩

/-- The values of a point in the box of a node are within the bounds and allowed by the cuts. -/
theorem Keeps.within {x : Array α} (h : node.Keeps (tabulate n f) (tabulate n g) x)
    (hproper : node.Proper n) {i var : Nat} {c : Cut} {v : α} (hvar : node.vars[i]? = some var)
    (hc : node.cuts[i]? = some c) (hv : x[var]? = some v) (hf : isNaN (f var) = false)
    (hg : isNaN (g var) = false) :
    (value (f var) ≤ value v ∧ value v ≤ value (g var)) ∧ c.Allows v := by
  obtain ⟨l, u, htighten, hcut, -⟩ :=
    exists_tighten_entries hproper.known hproper.nodup hproper.size_cuts f g
  have hmem := Array.mem_of_getElem? hvar
  have hlt := hproper.known var hmem
  obtain ⟨hl, hu⟩ := hcut i var c hvar hc
  have hbetween := h _ _ htighten var hmem v (l var) (u var) hv (getElem?_tabulate_of_lt l hlt)
    (getElem?_tabulate_of_lt u hlt)
  rwa [hl, hu, le_iff _ v, le_iff v, Cut.between_iff hf hg, Cut.spans_value_iff] at hbetween

/-- A node covers the vectors between the bounds that all of its cuts span. -/
theorem covers_iff (hproper : node.Proper n) (hf : ∀ j, isNaN (f j) = false)
    (hg : ∀ j, isNaN (g j) = false) : node.Covers (tabulate n f) (tabulate n g) z ↔
      (∀ j < n, value (f j) ≤ z j ∧ z j ≤ value (g j)) ∧
        ∀ (i var : Nat) (c : Cut), node.vars[i]? = some var → node.cuts[i]? = some c →
          c.Spans α (z var) := by
  obtain ⟨l, u, htighten, hcut, hkept⟩ :=
    exists_tighten_entries hproper.known hproper.nodup hproper.size_cuts f g
  have hcovers : node.Covers (tabulate n f) (tabulate n g) z ↔
      ∀ j < n, value (l j) ≤ z j ∧ z j ≤ value (u j) := by
    constructor
    · rintro ⟨l', u', htighten', hbetween⟩ j hj
      obtain ⟨rfl, rfl⟩ := Prod.mk.inj (Except.ok.inj (htighten.symm.trans htighten'))
      exact hbetween j _ _ (getElem?_tabulate_of_lt l hj) (getElem?_tabulate_of_lt u hj)
    · refine fun h => ⟨_, _, htighten, fun j a b ha hb => ?_⟩
      rw [getElem?_tabulate] at ha hb
      split at ha
      · rename_i hj
        rw [if_pos hj] at hb
        rw [← Option.some.inj ha, ← Option.some.inj hb]
        exact h j hj
      · cases ha
  rw [hcovers]
  constructor
  · intro h
    refine ⟨fun j hj => ?_, fun i var c hvar hc => ?_⟩
    · by_cases hmem : j ∈ node.vars
      · obtain ⟨i, hi, hvar⟩ := Array.mem_iff_getElem.mp hmem
        have hcuts : i < node.cuts.size := hproper.size_cuts ▸ hi
        obtain ⟨hl, hu⟩ := hcut i j _ (Array.getElem?_eq_some_iff.mpr ⟨hi, hvar⟩)
          (Array.getElem?_eq_getElem hcuts)
        have hj := h j hj
        rw [hl, hu, Cut.between_iff (hf j) (hg j)] at hj
        exact hj.1
      · obtain ⟨hl, hu⟩ := hkept j hmem
        rw [← hl, ← hu]
        exact h j hj
    · have hj := h var (hproper.known var (Array.mem_of_getElem? hvar))
      obtain ⟨hl, hu⟩ := hcut i var c hvar hc
      rw [hl, hu, Cut.between_iff (hf var) (hg var)] at hj
      exact hj.2
  · rintro ⟨hbetween, hspans⟩ j hj
    by_cases hmem : j ∈ node.vars
    · obtain ⟨i, hi, hvar⟩ := Array.mem_iff_getElem.mp hmem
      have hcuts : i < node.cuts.size := hproper.size_cuts ▸ hi
      have hvar : node.vars[i]? = some j := Array.getElem?_eq_some_iff.mpr ⟨hi, hvar⟩
      have hc := Array.getElem?_eq_getElem hcuts
      obtain ⟨hl, hu⟩ := hcut i j _ hvar hc
      rw [hl, hu, Cut.between_iff (hf j) (hg j)]
      exact ⟨hbetween j hj, hspans i j _ hvar hc⟩
    · obtain ⟨hl, hu⟩ := hkept j hmem
      rw [hl, hu]
      exact hbetween j hj

/-- A node with another cut at one position covers what the node covers, so far as the new cut
leaves it. -/
theorem covers_recut_iff (hproper : node.Proper n) (hf : ∀ j, isNaN (f j) = false)
    (hg : ∀ j, isNaN (g j) = false) {i var : Nat} {c c' : Cut} (hvar : node.vars[i]? = some var)
    (hc : node.cuts[i]? = some c) (estimate : α) {P : Exact → Prop}
    (hP : ∀ w, c'.Spans α w ↔ c.Spans α w ∧ P w) :
    (node.recut i c' estimate).Covers (tabulate n f) (tabulate n g) z ↔
      node.Covers (tabulate n f) (tabulate n g) z ∧ P (z var) := by
  have hi : i < node.cuts.size := (Array.getElem?_eq_some_iff.mp hc).1
  have hself : (node.recut i c' estimate).cuts[i]? = some c' :=
    Array.getElem?_setIfInBounds_self_of_lt hi
  have hother : ∀ k, k ≠ i → (node.recut i c' estimate).cuts[k]? = node.cuts[k]? := fun k hk =>
    Array.getElem?_setIfInBounds_ne fun h => hk h.symm
  rw [covers_iff hproper.recut hf hg, covers_iff hproper hf hg, and_assoc, and_congr_right_iff]
  intro _
  constructor
  · intro h
    have hat := (hP _).mp (h i var c' hvar hself)
    refine ⟨fun k w e hw he => ?_, hat.2⟩
    by_cases hk : k = i
    · subst hk
      obtain rfl := Option.some.inj (hvar.symm.trans hw)
      obtain rfl := Option.some.inj (hc.symm.trans he)
      exact hat.1
    · exact h k w e hw ((hother k hk).trans he)
  · rintro ⟨h, hat⟩ k w e hw he
    by_cases hk : k = i
    · subst hk
      obtain rfl := Option.some.inj (hvar.symm.trans hw)
      obtain rfl := Option.some.inj (hself.symm.trans he)
      exact (hP _).mpr ⟨h k var c hvar hc, hat⟩
    · exact h k w e hw ((hother k hk).symm.trans he)

end Node

/-! ## Children -/

section

variable {node : Node α} {n : Nat} {f g : Nat → α} {z : Nat → Exact} {i var : Nat} {c : Cut}
  {v : α} {q : ℚ} (hproper : node.Proper n) (hf : ∀ j, isNaN (f j) = false)
  (hg : ∀ j, isNaN (g j) = false) (hvar : node.vars[i]? = some var)
  (hc : node.cuts[i]? = some c) (hv : value v = .ofRat q) (hallows : c.Allows v)

include hproper hf hg hvar hc hv hallows

/-- The child below a value that the cut allows covers what is at most the floor of the value. -/
theorem covers_below_iff (estimate : α) :
    (node.recut i { c with atMost := some ⌊q⌋ } estimate).Covers (tabulate n f) (tabulate n g) z ↔
      node.Covers (tabulate n f) (tabulate n g) z ∧ z var ≤ .ofRat ⌊q⌋ := by
  have hfloor : value (Scalar.floor v) = .ofRat (⌊q⌋ : ℤ) := by
    rw [value_floor, hv, Exact.floor_ofRat]
  have hspans : c.Spans α (.ofRat q) := hv ▸ Cut.spans_value_iff.mpr hallows
  exact Node.covers_recut_iff hproper hf hg hvar hc estimate (P := fun w => w ≤ .ofRat ⌊q⌋) fun w =>
    Cut.spans_atMost hspans (value_ofInt_of_eq hfloor) (Int.floor_le q)

theorem covers_above_iff (estimate : α) :
    (node.recut i { c with atLeast := some ⌈q⌉ } estimate).Covers (tabulate n f) (tabulate n g) z ↔
      node.Covers (tabulate n f) (tabulate n g) z ∧ .ofRat ⌈q⌉ ≤ z var := by
  have hceil : value (Scalar.ceil v) = .ofRat (⌈q⌉ : ℤ) := by
    rw [value_ceil, hv, Exact.ceil_ofRat]
  have hspans : c.Spans α (.ofRat q) := hv ▸ Cut.spans_value_iff.mpr hallows
  exact Node.covers_recut_iff hproper hf hg hvar hc estimate (P := fun w => .ofRat ⌈q⌉ ≤ w) fun w =>
    Cut.spans_atLeast hspans (value_ofInt_of_eq hceil) (Int.le_ceil q)

end

/-- How the children of a node share out the points of its box, with given bounds of all variables
and a point branched on. -/
structure Split.Divides (s : Split α) (node : Node α) (lower upper x : Array α)
    (b : Branching α) : Prop where
  tightened : ∀ kid, kid = s.continued ∨ kid = s.forked →
    ∃ l u, kid.tighten lower upper = .ok (l, u)
  /-- Each vector of the node with whole values at the whole variables is in one child. -/
  whole : ∀ z : Nat → Exact, (∀ var ∈ node.vars, ∃ k : ℤ, z var = .ofRat k) →
    node.Covers lower upper z →
      Xor (s.continued.Covers lower upper z) (s.forked.Covers lower upper z)
  /-- The children have no vector that the node has not. -/
  inside : ∀ z, s.continued.Covers lower upper z ∨ s.forked.Covers lower upper z →
    node.Covers lower upper z
  /-- The point is in neither child. -/
  excluded : ∀ z, (∀ (j : Nat) (v : α), x[j]? = some v → z j = value v) →
    ¬s.continued.Covers lower upper z ∧ ¬s.forked.Covers lower upper z
  /-- The children differ from the node in one cut. -/
  others : ∀ kid, kid = s.continued ∨ kid = s.forked →
    kid.vars = node.vars ∧ ∀ i, i ≠ b.position → kid.cuts[i]? = node.cuts[i]?

/-- The order of the children does not matter. -/
theorem Split.Divides.swap {node first second : Node α} {lower upper x : Array α} {b : Branching α}
    {way back : Direction} (h : Split.Divides ⟨first, second, way⟩ node lower upper x b) :
    Split.Divides ⟨second, first, back⟩ node lower upper x b where
  tightened kid hkid := h.tightened kid hkid.symm
  whole z hz hcovers := (xor_comm _ _).mp (h.whole z hz hcovers)
  inside z hz := h.inside z hz.symm
  excluded z hz := (h.excluded z hz).symm
  others kid hkid := h.others kid hkid.symm

section

variable {criteria : Criteria α} {node : Node α} {n : Nat} {x : Array α} {b : Branching α}

/-- What is below a value off the whole numbers and what is above it divide the whole points. -/
theorem divides_of_recut {f g : Nat → α} {c : Cut} {q : ℚ} (hproper : node.Proper n)
    (hf : ∀ j, isNaN (f j) = false) (hg : ∀ j, isNaN (g j) = false)
    (hvar : node.vars[b.position]? = some b.var) (hc : node.cuts[b.position]? = some c)
    (hx : x[b.var]? = some b.value) (hv : value b.value = .ofRat q) (hfrac : ∀ k : ℤ, q ≠ k)
    (hallows : c.Allows b.value) (estimate : α) (way : Direction) :
    Split.Divides ⟨node.recut b.position { c with atMost := some ⌊q⌋ } estimate,
      node.recut b.position { c with atLeast := some ⌈q⌉ } estimate, way⟩ node
      (tabulate n f) (tabulate n g) x b := by
  have hbelow := fun z => covers_below_iff (z := z) hproper hf hg hvar hc hv hallows estimate
  have habove := fun z => covers_above_iff (z := z) hproper hf hg hvar hc hv hallows estimate
  have hstep : ⌈q⌉ = ⌊q⌋ + 1 := Exact.ceil_eq_floor_add_one hfrac
  refine ⟨?_, ?_, ?_, ?_, ?_⟩
  · rintro kid (rfl | rfl)
    · exact hproper.recut.exists_tighten (size_tabulate f) (size_tabulate g)
    · exact hproper.recut.exists_tighten (size_tabulate f) (size_tabulate g)
  · intro z hz hcovers
    obtain ⟨k, hk⟩ := hz b.var (Array.mem_of_getElem? hvar)
    have hleft := hbelow z
    have hright := habove z
    rw [hk, Exact.ofRat_le, Rat.intCast_le_intCast] at hleft hright
    rcases le_or_gt k ⌊q⌋ with hle | hgt
    · refine Or.inl ⟨hleft.mpr ⟨hcovers, hle⟩, fun h => ?_⟩
      have hge := (hright.mp h).2
      omega
    · refine Or.inr ⟨hright.mpr ⟨hcovers, by omega⟩, fun h => ?_⟩
      have hle := (hleft.mp h).2
      omega
  · rintro z (h | h)
    · exact ((hbelow z).mp h).1
    · exact ((habove z).mp h).1
  · intro z hz
    have hat : z b.var = .ofRat q := (hz b.var b.value hx).trans hv
    constructor
    · intro h
      have hle := ((hbelow z).mp h).2
      rw [hat, Exact.ofRat_le] at hle
      exact hfrac ⌊q⌋ (le_antisymm hle (Int.floor_le q))
    · intro h
      have hle := ((habove z).mp h).2
      rw [hat, Exact.ofRat_le] at hle
      exact hfrac ⌈q⌉ (le_antisymm (Int.le_ceil q) hle)
  · rintro kid (rfl | rfl)
    · exact ⟨rfl, fun i hi => Array.getElem?_setIfInBounds_ne fun h => hi h.symm⟩
    · exact ⟨rfl, fun i hi => Array.getElem?_setIfInBounds_ne fun h => hi h.symm⟩

/-- A node that branches at a point of its box is split, and its children divide the box. -/
theorem divides_of_branching {lower upper : Array α} (hproper : node.Proper n)
    (hlower : lower.size = n) (hupper : upper.size = n) (hl : ∀ v ∈ lower, isNaN v = false)
    (hu : ∀ v ∈ upper, isNaN v = false) (ht : Exact.ofRat 0 ≤ value criteria.integrality)
    (hx : ∀ v ∈ x, isFinite v = true) (hin : node.Keeps lower upper x)
    (hb : criteria.branching? x node = .ok (some b)) (objective : α) :
    ∃ s, node.split b objective = .ok s ∧ s.Divides node lower upper x b := by
  have hzero : isNaN (0.0 : α) = false := by
    rw [isNaN_eq, value_zero]
    rfl
  obtain ⟨f, rfl, hf⟩ := exists_eq_tabulate_of (P := fun v => isNaN v = false) hlower hzero hl
  obtain ⟨g, rfl, hg⟩ := exists_eq_tabulate_of (P := fun v => isNaN v = false) hupper hzero hu
  obtain ⟨hvar, hvalue, -⟩ := Criteria.branching?_eq_some hb
  obtain ⟨q, hq, hfrac⟩ := value_of_branching ht hx hb
  have hposition : b.position < node.cuts.size := by
    rw [hproper.size_cuts]
    exact (Array.getElem?_eq_some_iff.mp hvar).1
  obtain ⟨s, hs⟩ := Node.split_ok hposition objective
  obtain ⟨c, hc, hkids⟩ := Node.split_eq_ok hs
  obtain ⟨-, hallows⟩ := hin.within hproper hvar hc hvalue (hf b.var) (hg b.var)
  rw [toInt_floor b.value q hq hfrac, toInt_ceil b.value q hq hfrac] at hkids
  have hdivides := divides_of_recut hproper hf hg hvar hc hvalue hq hfrac hallows objective
  refine ⟨s, hs, ?_⟩
  -- whichever of the two is searched first
  obtain ⟨continued, forked, way⟩ := s
  rcases hkids with ⟨rfl, rfl⟩ | ⟨rfl, rfl⟩
  · exact hdivides way
  · exact (hdivides way).swap

end

end

/-! ## Doubles -/

/-- What a node branches on at a point: its first variable whose value is off the whole numbers by
more than the tolerance. The value is one of less than 52 bits before the point, so its whole
neighbours are machine integers, and doubles too. -/
structure Criteria.Picks (criteria : Criteria Float) (node : Node Float) (x : Array Float)
    (b : Branching Float) : Prop where
  chosen : node.vars[b.position]? = some b.var ∧ x[b.var]? = some b.value
  earlier : ∀ i var : Nat, i < b.position → node.vars[i]? = some var →
    ∃ (v : Float) (q : ℚ) (k : ℤ), x[var]? = some v ∧ value v = .ofRat q ∧
      .ofRat |q - k| ≤ value criteria.integrality
  fractional : ∃ q : ℚ, value b.value = .ofRat q ∧ (∀ k : ℤ, q ≠ k) ∧ |q| < 2 ^ 52 ∧
    Scalar.toInt (Scalar.floor b.value) = ⌊q⌋ ∧ value (Scalar.ofInt ⌊q⌋ : Float) = .ofRat ⌊q⌋ ∧
    Scalar.toInt (Scalar.ceil b.value) = ⌈q⌉ ∧ value (Scalar.ofInt ⌈q⌉ : Float) = .ofRat ⌈q⌉

/-- A finite number whose fractionality does not exceed a tolerance is that near to an integer, also
if the tolerance is infinite. -/
theorem exists_near_of_nonneg {a tolerance : Float} (ha : isFinite a = true)
    (ht : .ofRat 0 ≤ value tolerance) (h : ¬tolerance < fractionality a) :
    ∃ (q : ℚ) (k : ℤ), value a = .ofRat q ∧ .ofRat |q - k| ≤ value tolerance := by
  cases hvalue : value tolerance with
  | ofRat t =>
    have hfinite : isFinite tolerance = true := by
      rw [isFinite_eq, hvalue]
      rfl
    rw [← hvalue]
    exact exists_near_of_not_lt ha hfinite h
  | posInf =>
    rw [isFinite_eq] at ha
    obtain ⟨q, hq⟩ := Exact.isFinite_iff.mp ha
    exact ⟨q, 0, hq, Exact.ofRat_le_posInf _⟩
  | negInf =>
    rw [hvalue] at ht
    exact absurd ht (Exact.not_ofRat_le_negInf _)
  | nan =>
    rw [hvalue] at ht
    exact absurd ht (Exact.not_le_nan _)

theorem picks_of_branching {criteria : Criteria Float} {node : Node Float} {x : Array Float}
    {b : Branching Float} (ht : .ofRat 0 ≤ value criteria.integrality)
    (hx : ∀ v ∈ x, isFinite v = true) (hb : criteria.branching? x node = .ok (some b)) :
    criteria.Picks node x b := by
  obtain ⟨hvar, hvalue, -⟩ := Criteria.branching?_eq_some hb
  obtain ⟨q, hq, hfrac⟩ := value_of_branching ht hx hb
  have hlt : |q| < 2 ^ 52 := Double.abs_lt_of_not_whole hq hfrac
  obtain ⟨hfloor, hceil, -⟩ := Double.whole_bounds hlt
  refine ⟨⟨hvar, hvalue⟩, fun i var hi hw => ?_, q, hq, hfrac, hlt, ?_, ?_, ?_, ?_⟩
  · obtain ⟨v, hv, hnear⟩ := Criteria.branching?_first hb hi hw
    obtain ⟨q', k, hq', hk⟩ := exists_near_of_nonneg (hx v (Array.mem_of_getElem? hv)) ht hnear
    exact ⟨v, q', k, hv, hq', hk⟩
  · exact toInt_floor b.value q hq hfrac
  · exact Double.value_ofInt hfloor
  · exact toInt_ceil b.value q hq hfrac
  · exact Double.value_ofInt hceil

/-- Branching partitions the whole points of a node. Over bounds that are valid numbers, at a finite
point whose whole variables are in the node's box, the node branches on the first value that is off
the whole numbers, and it is split into two children that divide its box: every point with whole
values is in one of them and in no other, and the point branched on is in none. -/
theorem branching_partitions {criteria : Criteria Float} {node : Node Float} {n : Nat}
    {lower upper x : Array Float} {b : Branching Float} (hproper : node.Proper n)
    (hlower : lower.size = n) (hupper : upper.size = n) (hl : ∀ v ∈ lower, isNaN v = false)
    (hu : ∀ v ∈ upper, isNaN v = false) (ht : 0.0 ≤ criteria.integrality)
    (hx : ∀ v ∈ x, isFinite v = true) (hin : node.Keeps lower upper x)
    (hb : criteria.branching? x node = .ok (some b)) (objective : Float) :
    criteria.Picks node x b ∧
      ∃ s, node.split b objective = .ok s ∧ s.Divides node lower upper x b := by
  have ht' : .ofRat 0 ≤ value criteria.integrality := by
    rw [le_iff, value_zero] at ht
    exact ht
  exact ⟨picks_of_branching ht' hx hb,
    divides_of_branching hproper hlower hupper hl hu ht' hx hin hb objective⟩

/-! ## A corner -/

namespace Corner

def criteria : Criteria Float := ⟨.minimise, 0.0, 0.0, 1e-6⟩

/-- A node over the first and the third of three variables. -/
def node : Node Float := ⟨#[0, 2], #[Cut.free, { atMost := some 3 }], 0.0, 1⟩

def lower : Array Float := #[0.0, -Scalar.inf, 0.0]

def upper : Array Float := #[1.0, Scalar.inf, Scalar.inf]

def point : Array Float := #[1.0, 0.25, 2.5]

theorem keeps : node.Keeps lower upper point := by
  intro l u h var hvar v a b hv ha hb
  have htighten : node.tighten lower upper =
      .ok (lower, #[1.0, Scalar.inf, Scalar.minNum Scalar.inf (Scalar.ofInt 3)]) := rfl
  obtain ⟨rfl, rfl⟩ := Prod.mk.inj (Except.ok.inj (htighten.symm.trans h))
  have hcases : var = 0 ∨ var = 2 := by simpa [node] using hvar
  rcases hcases with rfl | rfl
  · obtain rfl := Option.some.inj hv
    obtain rfl := Option.some.inj ha
    obtain rfl := Option.some.inj hb
    decide +kernel
  · obtain rfl := Option.some.inj hv
    obtain rfl := Option.some.inj ha
    obtain rfl := Option.some.inj hb
    decide +kernel

theorem branching_partitions_corner : ∃ b s, criteria.branching? point node = .ok (some b) ∧
    b.position = 1 ∧ criteria.Picks node point b ∧
    node.split b 7.0 = .ok s ∧ s.Divides node lower upper point b := by
  obtain ⟨found, hfound, hposition⟩ : ∃ found, criteria.branching? point node = .ok found ∧
      found.map Branching.position = some 1 := by
    refine exists_of_toOption_map ?_
    decide +kernel
  obtain ⟨b, rfl, hb⟩ := Option.map_eq_some_iff.mp hposition
  have hlower : lower.size = 3 := rfl
  have hupper : upper.size = 3 := rfl
  obtain ⟨hpicks, s, hs, hdivides⟩ := branching_partitions ⟨by decide, by decide, rfl⟩ hlower hupper
    (by decide +kernel) (by decide +kernel) (by decide +kernel) (by decide +kernel) keeps hfound 7.0
  exact ⟨b, s, hfound, hb, hpicks, hs, hdivides⟩

end Corner

end BranchBound
