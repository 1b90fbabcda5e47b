import BranchBound.Proofs.Box
import BranchBound.Proofs.Lawful

/-!
# Branching

What is chosen to branch on, and what comes of it. The first half holds of all numbers: a branching
is at a whole variable whose value is off by more than the tolerance (`branching?_eq_some`), none is
found exactly if there is no such variable (`branching?_eq_none`), and the children of a node differ
from it in one cut (`Node.split_eq_ok`).

The second half is about lawful numbers. If a node's cuts leave its point, its children divide its
box (`parts_of_split`): floor and ceiling of a value that is not whole are integers next
to each other, whatever is rounded elsewhere.
-/

namespace BranchBound

variable {α : Type}

/-! ## Access -/

theorem entry_eq_ok_iff {β : Type} {xs : Array β} {i : Nat} {x : β} :
    entry (α := α) xs i = .ok x ↔ xs[i]? = some x := by
  unfold entry
  split
  · rename_i h
    rw [Array.getElem?_eq_getElem h, Except.ok.injEq, Option.some.injEq]
  · rename_i h
    rw [Array.getElem?_eq_none (not_lt.mp h)]
    exact ⟨fun hx => (nomatch hx), fun hx => (nomatch hx)⟩

theorem change_eq_ok_iff {β : Type} {xs ys : Array β} {i : Nat} {f : β → β} :
    change (α := α) xs i f = .ok ys ↔
      ∃ x, xs[i]? = some x ∧ ys = xs.setIfInBounds i (f x) := by
  unfold change
  split
  · rename_i h
    have hset : xs.setIfInBounds i (f xs[i]) = xs.set i (f xs[i]) := by
      rw [Array.setIfInBounds_def, dif_pos h]
    rw [Except.ok.injEq, Array.getElem?_eq_getElem h]
    constructor
    · rintro rfl
      exact ⟨xs[i], rfl, hset.symm⟩
    · rintro ⟨x, hx, rfl⟩
      rw [← Option.some.inj hx, hset]
  · rename_i h
    rw [Array.getElem?_eq_none (not_lt.mp h)]
    exact ⟨fun hx => (nomatch hx), fun ⟨_, hx, _⟩ => (nomatch hx)⟩

variable [Scalar α]

/-! ## Choice of the variable -/

namespace Criteria

variable {c : Criteria α} {x : Array α}

theorem firstFractional?_eq_some {vars : List (Nat × Nat)} {b : Branching α}
    (h : c.firstFractional? x vars = .ok (some b)) :
    (b.var, b.position) ∈ vars ∧ x[b.var]? = some b.value ∧
      c.integrality < fractionality b.value := by
  induction vars with
  | nil => cases h
  | cons vp rest ih =>
    obtain ⟨value, hvalue, h⟩ := bind_eq_ok.mp h
    split at h
    · rename_i hfrac
      rw [← Option.some.inj (Except.ok.inj h)]
      exact ⟨List.mem_cons_self, entry_eq_ok_iff.mp hvalue, hfrac⟩
    · obtain ⟨hmem, hb⟩ := ih h
      exact ⟨List.mem_cons_of_mem vp hmem, hb⟩

theorem firstFractional?_eq_none {vars : List (Nat × Nat)}
    (h : c.firstFractional? x vars = .ok none) :
    ∀ vp ∈ vars, ∃ value, x[vp.1]? = some value ∧ ¬c.integrality < fractionality value := by
  induction vars with
  | nil => exact fun vp hvp => nomatch hvp
  | cons vp rest ih =>
    obtain ⟨value, hvalue, h⟩ := bind_eq_ok.mp h
    split at h
    · cases h
    · rename_i hfrac
      intro wp hwp
      rcases List.mem_cons.mp hwp with rfl | hrest
      · exact ⟨value, entry_eq_ok_iff.mp hvalue, hfrac⟩
      · exact ih h wp hrest

theorem firstFractional?_ok {vars : List (Nat × Nat)} (h : ∀ vp ∈ vars, vp.1 < x.size) :
    ∃ found, c.firstFractional? x vars = .ok found := by
  induction vars with
  | nil => exact ⟨none, rfl⟩
  | cons vp rest ih =>
    have hvalue : entry (α := α) x vp.1 = .ok _ :=
      entry_eq_ok_iff.mpr (Array.getElem?_eq_getElem (h vp List.mem_cons_self))
    simp only [firstFractional?, hvalue, bind, Except.bind, pure, Except.pure]
    split
    · exact ⟨_, rfl⟩
    · exact ih fun wp hwp => h wp (List.mem_cons_of_mem vp hwp)

/-- A point that is whole at some variables has them. -/
theorem size_of_allWhole {vars : List Nat} (h : c.allWhole x vars = .ok true) :
    ∀ var ∈ vars, var < x.size := by
  induction vars with
  | nil => exact fun var hvar => nomatch hvar
  | cons first rest ih =>
    obtain ⟨value, hvalue, h⟩ := bind_eq_ok.mp h
    split at h
    · intro var hvar
      rcases List.mem_cons.mp hvar with rfl | hrest
      · exact (Array.getElem?_eq_some_iff.mp (entry_eq_ok_iff.mp hvalue)).1
      · exact ih h var hrest
    · cases h

omit [Scalar α] in
theorem mem_positions {node : Node α} {var i : Nat} :
    (var, i) ∈ node.vars.toList.zipIdx ↔ node.vars[i]? = some var := by
  rw [List.mk_mem_zipIdx_iff_getElem?, Array.getElem?_toList]

/-- A node branches on a whole variable whose value is not whole. -/
theorem branching?_eq_some {node : Node α} {b : Branching α}
    (h : c.branching? x node = .ok (some b)) :
    node.vars[b.position]? = some b.var ∧ x[b.var]? = some b.value ∧
      c.integrality < fractionality b.value := by
  obtain ⟨hmem, hb⟩ := firstFractional?_eq_some h
  exact ⟨mem_positions.mp hmem, hb⟩

/-- A node does not branch if all its whole variables have whole values. -/
theorem branching?_eq_none {node : Node α} (h : c.branching? x node = .ok none) {var i : Nat}
    (hvar : node.vars[i]? = some var) :
    ∃ value, x[var]? = some value ∧ ¬c.integrality < fractionality value :=
  firstFractional?_eq_none h (var, i) (mem_positions.mpr hvar)

theorem branching?_ok {node : Node α} (h : ∀ (i var : Nat), node.vars[i]? = some var →
    var < x.size) : ∃ found, c.branching? x node = .ok found :=
  firstFractional?_ok fun vp hvp => h vp.2 vp.1 (mem_positions.mp hvp)

end Criteria

/-! ## Children -/

namespace Node

omit [Scalar α] in
/-- The child with the given cut at one position. -/
def recut (node : Node α) (i : Nat) (c : Cut) (estimate : α) : Node α :=
  { node with cuts := node.cuts.setIfInBounds i c, estimate, depth := node.depth + 1 }

omit [Scalar α] in
theorem child_eq_ok_iff {node kid : Node α} {i : Nat} {f : Cut → Cut} {estimate : α} :
    node.child i f estimate = .ok kid ↔
      ∃ c, node.cuts[i]? = some c ∧ kid = node.recut i (f c) estimate := by
  unfold child
  rw [bind_eq_ok]
  constructor
  · rintro ⟨cuts, hcuts, h⟩
    obtain ⟨c, hc, rfl⟩ := change_eq_ok_iff.mp hcuts
    exact ⟨c, hc, (Except.ok.inj h).symm⟩
  · rintro ⟨c, hc, rfl⟩
    exact ⟨_, change_eq_ok_iff.mpr ⟨c, hc, rfl⟩, rfl⟩

/-- The children of a node are the one below the value and the one above it, nearer one first. -/
theorem split_eq_ok {node : Node α} {b : Branching α} {objective : α} {s : Split α}
    (h : node.split b objective = .ok s) : ∃ c, node.cuts[b.position]? = some c ∧
      ((s.continued = node.recut b.position
            { c with atMost := some (Scalar.toInt (Scalar.floor b.value)) } objective ∧
          s.forked = node.recut b.position
            { c with atLeast := some (Scalar.toInt (Scalar.ceil b.value)) } objective) ∨
        (s.forked = node.recut b.position
            { c with atMost := some (Scalar.toInt (Scalar.floor b.value)) } objective ∧
          s.continued = node.recut b.position
            { c with atLeast := some (Scalar.toInt (Scalar.ceil b.value)) } objective)) := by
  obtain ⟨below, hbelow, h⟩ := bind_eq_ok.mp h
  obtain ⟨c, hc, rfl⟩ := child_eq_ok_iff.mp hbelow
  obtain ⟨above, habove, h⟩ := bind_eq_ok.mp h
  obtain ⟨c', hc', rfl⟩ := child_eq_ok_iff.mp habove
  rw [hc] at hc'
  obtain rfl := Option.some.inj hc'
  refine ⟨c, hc, ?_⟩
  split at h
  · rw [← Except.ok.inj h]
    exact Or.inr ⟨rfl, rfl⟩
  · rw [← Except.ok.inj h]
    exact Or.inl ⟨rfl, rfl⟩

theorem split_ok {node : Node α} {b : Branching α} (h : b.position < node.cuts.size)
    (objective : α) : ∃ s, node.split b objective = .ok s := by
  have hc := Array.getElem?_eq_getElem h
  unfold split down up
  rw [child_eq_ok_iff.mpr ⟨_, hc, rfl⟩, child_eq_ok_iff.mpr ⟨_, hc, rfl⟩]
  simp only [bind, Except.bind, pure, Except.pure]
  split
  · exact ⟨_, rfl⟩
  · exact ⟨_, rfl⟩

/-- Whether a node bounds the whole variables of a problem, each with one cut. -/
def IsOver (node : Node α) (problem : Problem α) : Prop :=
  node.vars = problem.integers ∧ node.cuts.size = problem.integers.size

theorem isOver_root {search : Search α} : search.root.IsOver search.problem :=
  ⟨rfl, Array.size_replicate⟩

/-- What the children of a node take over from it and from its point. -/
theorem of_split {node kid : Node α} {b : Branching α} {objective : α} {s : Split α}
    (h : node.split b objective = .ok s) (hkid : kid = s.continued ∨ kid = s.forked) :
    kid.vars = node.vars ∧ kid.cuts.size = node.cuts.size ∧ kid.estimate = objective ∧
      kid.depth = node.depth + 1 := by
  obtain ⟨c, -, ⟨hc, hf⟩ | ⟨hf, hc⟩⟩ := split_eq_ok h <;> rcases hkid with rfl | rfl <;>
    simp [hc, hf, recut]

theorem IsOver.of_split {node kid : Node α} {problem : Problem α} {b : Branching α} {objective : α}
    {s : Split α} (hover : node.IsOver problem) (h : node.split b objective = .ok s)
    (hkid : kid = s.continued ∨ kid = s.forked) : kid.IsOver problem := by
  obtain ⟨hvars, hsize, -, -⟩ := Node.of_split h hkid
  exact ⟨hvars.trans hover.1, hsize.trans hover.2⟩

end Node

/-! ## Points in a box -/

/-- Whether a cut leaves a number. -/
def Cut.Allows (c : Cut) (v : α) : Prop :=
  (∀ b, c.atLeast = some b → Scalar.ofInt b ≤ v) ∧ (∀ b, c.atMost = some b → v ≤ Scalar.ofInt b)

/-- Whether a point has all whole variables of a node, each with a value that its cut leaves. -/
def Node.Contains (node : Node α) (x : Array α) : Prop :=
  ∀ (i var : Nat) (c : Cut), node.vars[i]? = some var → node.cuts[i]? = some c →
    ∃ v, x[var]? = some v ∧ c.Allows v

/-- Whether the cuts of a node leave the values that a point has of its whole variables. -/
def Node.Allows (node : Node α) (x : Array α) : Prop :=
  ∀ (i var : Nat) (c : Cut) (v : α), node.vars[i]? = some var → node.cuts[i]? = some c →
    x[var]? = some v → c.Allows v

theorem Node.Contains.allows {node : Node α} {x : Array α} (h : node.Contains x) :
    node.Allows x := by
  intro i var c v hvar hc hv
  obtain ⟨w, hw, hallows⟩ := h i var c hvar hc
  rw [hv] at hw
  rw [Option.some.inj hw]
  exact hallows

/-! ## Lawful numbers -/

section

variable [Lawful α]

open Lawful

/-- A cut that leaves a number off the whole ones leaves both of its whole neighbours. -/
theorem Cut.admits_of_allows {c : Cut} {v : α} {q : ℚ} (hv : value v = .ofRat q) (h : c.Allows v)
    (hq : ∀ n : ℤ, q ≠ n) : c.Admits ⌊q⌋ ∧ c.Admits (⌊q⌋ + 1) := by
  have hstep := Exact.ceil_eq_floor_add_one hq
  -- a bound beyond a whole neighbour is rounded to the far side of it at most
  have hbelow : ∀ b, c.atLeast = some b → b ≤ ⌊q⌋ := fun b hb => by
    have hle := h.1 b hb
    rw [le_iff, hv] at hle
    by_contra hgt
    have hceil : value (Scalar.ceil v) = .ofRat ⌈q⌉ := by rw [value_ceil, hv, Exact.ceil_ofRat]
    have hge := (faithful_ofInt b).ge_of_ge (Scalar.ceil v)
    rw [hceil, Exact.ofRat_le] at hge
    have hqle := Exact.le_trans (hge (by exact_mod_cast (by omega : ⌈q⌉ ≤ b))) hle
    rw [Exact.ofRat_le] at hqle
    exact hq ⌈q⌉ (le_antisymm (Int.le_ceil q) hqle)
  have habove : ∀ b, c.atMost = some b → ⌊q⌋ + 1 ≤ b := fun b hb => by
    have hle := h.2 b hb
    rw [le_iff, hv] at hle
    by_contra hlt
    have hfloor : value (Scalar.floor v) = .ofRat ⌊q⌋ := by
      rw [value_floor, hv, Exact.floor_ofRat]
    have hge := (faithful_ofInt b).le_of_le (Scalar.floor v)
    rw [hfloor, Exact.ofRat_le] at hge
    have hqle := Exact.le_trans hle (hge (by exact_mod_cast (by omega : b ≤ ⌊q⌋)))
    rw [Exact.ofRat_le] at hqle
    exact hq ⌊q⌋ (le_antisymm hqle (Int.floor_le q))
  constructor
  · exact ⟨hbelow, fun b hb => (lt_of_lt_of_le (lt_add_one _) (habove b hb)).le⟩
  · exact ⟨fun b hb => le_trans (hbelow b hb) (lt_add_one _).le, habove⟩

/-- A whole number has no distance to the nearest one. -/
theorem value_fractionality_of_whole {v : α} {n : ℤ} (h : value v = .ofRat n) :
    value (fractionality v) = .ofRat 0 := by
  have hsub := faithful_sub v (Scalar.round v)
  rw [h, value_round v n h, Exact.ofRat_sub, sub_self] at hsub
  unfold fractionality
  rw [value_abs, hsub.value_eq value_zero (nomatch ·), Exact.abs_ofRat, abs_zero]

/-- The value that a node branches on, as a rational off the whole numbers. -/
theorem value_of_branching {c : Criteria α} {node : Node α} {x : Array α}
    {b : Branching α} (ht : Exact.ofRat 0 ≤ value c.integrality)
    (hx : ∀ v ∈ x, Scalar.isFinite v = true) (h : c.branching? x node = .ok (some b)) :
    ∃ q : ℚ, value b.value = .ofRat q ∧ ∀ n : ℤ, q ≠ n := by
  obtain ⟨-, hvalue, hfrac⟩ := Criteria.branching?_eq_some h
  have hfinite := hx b.value (Array.mem_of_getElem? hvalue)
  rw [isFinite_eq] at hfinite
  obtain ⟨q, hq⟩ := Exact.isFinite_iff.mp hfinite
  refine ⟨q, hq, fun n hn => ?_⟩
  subst hn
  rw [lt_iff, value_fractionality_of_whole hq] at hfrac
  exact Exact.not_lt_of_le ht hfrac

end

/-- The whole variable at a position. -/
def Problem.varAt {α : Type} (problem : Problem α) (i : Fin problem.integers.size) : Nat :=
  problem.integers[i]

section

variable [Lawful α] {c : Criteria α} {problem : Problem α} {node : Node α} {x : Array α}
  {b : Branching α} {objective : α} {s : Split α}

open Lawful

/-- The children of a node take the halves of its box on both sides of the value that it branches
on, if it allows its point. -/
theorem halves_of_split (ht : Exact.ofRat 0 ≤ value c.integrality) (hover : node.IsOver problem)
    (hx : ∀ v ∈ x, Scalar.isFinite v = true) (hin : node.Allows x)
    (hb : c.branching? x node = .ok (some b)) (hs : node.split b objective = .ok s) :
    ∃ (i : Fin problem.integers.size) (v : α) (q : ℚ), x[problem.varAt i]? = some v ∧
      value v = .ofRat q ∧ (∀ n : ℤ, q ≠ n) ∧
      (Node.Halves problem.integers.size node s.continued s.forked i ⌊q⌋ ∨
        Node.Halves problem.integers.size node s.forked s.continued i ⌊q⌋) := by
  obtain ⟨hvar, hvalue, -⟩ := Criteria.branching?_eq_some hb
  obtain ⟨q, hq, hfrac⟩ := value_of_branching ht hx hb
  obtain ⟨cut, hcut, hchildren⟩ := Node.split_eq_ok hs
  have hlt : b.position < problem.integers.size := by
    rw [← hover.2]
    exact (Array.getElem?_eq_some_iff.mp hcut).1
  have hallows := hin b.position b.var cut b.value hvar hcut hvalue
  obtain ⟨hd, hd1⟩ := Cut.admits_of_allows hq hallows hfrac
  -- off the whole numbers, floor and ceiling are next to each other
  have hfloor : Scalar.toInt (Scalar.floor b.value) = ⌊q⌋ := toInt_floor b.value q hq hfrac
  have hceil : Scalar.toInt (Scalar.ceil b.value) = ⌊q⌋ + 1 := by
    rw [toInt_ceil b.value q hq hfrac, Exact.ceil_eq_floor_add_one hfrac]
  rw [hfloor, hceil] at hchildren
  refine ⟨⟨b.position, hlt⟩, b.value, q, ?_, hq, hfrac, ?_⟩
  · rw [hover.1, Array.getElem?_eq_getElem hlt] at hvar
    rw [← hvalue]
    exact congrArg (x[·]?) (Option.some.inj hvar)
  · rcases hchildren with ⟨hc, hf⟩ | ⟨hf, hc⟩
    · exact Or.inl (halves_of_recut hcut hd hd1 (by rw [hc]; rfl) (by rw [hf]; rfl))
    · exact Or.inr (halves_of_recut hcut hd hd1 (by rw [hf]; rfl) (by rw [hc]; rfl))

/-- The children of a node divide its box, if it allows its point. -/
theorem parts_of_split (ht : Exact.ofRat 0 ≤ value c.integrality) (hover : node.IsOver problem)
    (hx : ∀ v ∈ x, Scalar.isFinite v = true) (hin : node.Allows x)
    (hne : (box problem.integers.size node.cuts).Nonempty)
    (hb : c.branching? x node = .ok (some b)) (hs : node.split b objective = .ok s) :
    Node.Parts problem.integers.size node s.continued s.forked := by
  obtain ⟨i, v, q, -, -, -, hhalves | hhalves⟩ := halves_of_split ht hover hx hin hb hs
  · exact hhalves.parts hne
  · exact (hhalves.parts hne).symm

end

/-! ## Whole points -/

/-- Whether a point has a whole value at every whole variable of a problem. -/
def Problem.Whole (problem : Problem Exact) (x : Array Exact) : Prop :=
  ∀ var ∈ problem.integers, ∃ k : ℤ, x[var]? = some (.ofRat k)

/-- Whether the whole variables of a point have given values, by position. -/
def Problem.Assigns (problem : Problem Exact) (x : Array Exact)
    (z : Fin problem.integers.size → ℤ) : Prop :=
  ∀ i : Fin problem.integers.size, x[problem.varAt i]? = some (.ofRat (z i))

theorem exists_assigns {problem : Problem Exact} {x : Array Exact} (h : problem.Whole x) :
    ∃ z, problem.Assigns x z := by
  choose z hz using fun i : Fin problem.integers.size =>
    h (problem.varAt i) (Array.getElem_mem i.isLt)
  exact ⟨z, hz⟩

/-- A whole point lies in a node exactly if its values lie in the box. -/
theorem contains_iff_mem_box {problem : Problem Exact} {node : Node Exact} {x : Array Exact}
    {z : Fin problem.integers.size → ℤ} (hover : node.IsOver problem)
    (hz : problem.Assigns x z) :
    node.Contains x ↔ z ∈ box problem.integers.size node.cuts := by
  have hadmits : ∀ (c : Cut) (k : ℤ), c.Allows (Exact.ofRat k) ↔ c.Admits k := by
    intro c k
    simp only [Cut.Allows, Cut.Admits, Exact.ofInt_eq, Exact.ofRat_le, Rat.intCast_le_intCast]
  constructor
  · intro h i c hc
    have hvar : node.vars[i.val]? = some (problem.varAt i) := by
      rw [hover.1]
      exact Array.getElem?_eq_getElem i.isLt
    obtain ⟨v, hv, hallows⟩ := h i _ c hvar hc
    rw [hz i] at hv
    rw [← Option.some.inj hv, hadmits] at hallows
    exact hallows
  · intro h i var c hvar hc
    rw [hover.1] at hvar
    obtain ⟨hi, rfl⟩ := Array.getElem?_eq_some_iff.mp hvar
    exact ⟨_, hz ⟨i, hi⟩, (hadmits c _).mpr (h ⟨i, hi⟩ c hc)⟩

end BranchBound
