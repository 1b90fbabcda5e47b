import BranchBound.Proofs.Schedule
import Mathlib.Data.Int.ConditionallyCompleteOrder
import Mathlib.Data.Set.BooleanAlgebra
import Mathlib.Order.CompletePartialOrder

/-!
# Boxes of whole assignments

The box of a node, as the whole assignments that its cuts leave to the whole variables, by position.
Branching divides a box: the children's boxes are disjoint, and together they are the node's box
(`Node.Parts`).

So when a node gives way to its children, the pending boxes stay disjoint, and each of them is
strictly inside the box of every node that was come to, or disjoint from it (`Apart.of_outcome`).
Along every schedule this holds of the boxes that a search marks (`Run.Separated`), and no box comes
up twice (`Run.Separated.isNew`).
-/

namespace BranchBound

variable {α : Type}

/-! ## Boxes -/

/-- Whether a cut leaves an integer. -/
def Cut.Admits (c : Cut) (k : ℤ) : Prop :=
  (∀ b, c.atLeast = some b → b ≤ k) ∧ (∀ b, c.atMost = some b → k ≤ b)

theorem Cut.admits_atMost {c : Cut} {d k : ℤ} (hd : c.Admits d) :
    ({ c with atMost := some d } : Cut).Admits k ↔ c.Admits k ∧ k ≤ d := by
  constructor
  · intro h
    have hk : k ≤ d := h.2 d rfl
    exact ⟨⟨h.1, fun b hb => le_trans hk (hd.2 b hb)⟩, hk⟩
  · intro h
    refine ⟨h.1.1, fun b hb => ?_⟩
    rw [← Option.some.inj hb]
    exact h.2

theorem Cut.admits_atLeast {c : Cut} {d k : ℤ} (hd : c.Admits d) :
    ({ c with atLeast := some d } : Cut).Admits k ↔ c.Admits k ∧ d ≤ k := by
  constructor
  · intro h
    have hk : d ≤ k := h.1 d rfl
    exact ⟨⟨fun b hb => le_trans (hd.1 b hb) hk, h.2⟩, hk⟩
  · intro h
    refine ⟨fun b hb => ?_, h.1.2⟩
    rw [← Option.some.inj hb]
    exact h.2

/-- The whole assignments to `n` positions that cuts leave. -/
def box (n : Nat) (cuts : Array Cut) : Set (Fin n → ℤ) :=
  {z | ∀ (i : Fin n) (c : Cut), cuts[i.val]? = some c → c.Admits (z i)}

theorem mem_box_root {n : Nat} {vars : Array Nat} {estimate : α} (z : Fin n → ℤ) :
    z ∈ box n (Node.root vars estimate).cuts := by
  intro i c hc
  have hfree : c = Cut.free := by
    unfold Node.root at hc
    rw [Array.getElem?_replicate] at hc
    split at hc
    · exact (Option.some.inj hc).symm
    · cases hc
  rw [hfree]
  exact ⟨fun b hb => (nomatch hb), fun b hb => (nomatch hb)⟩

theorem mem_box_set {n : Nat} {cuts : Array Cut} {i : Fin n} {c c' : Cut}
    (hi : cuts[i.val]? = some c) {z : Fin n → ℤ} :
    z ∈ box n (cuts.setIfInBounds i c') ↔
      (∀ (j : Fin n) (e : Cut), j ≠ i → cuts[j.val]? = some e → e.Admits (z j)) ∧
        c'.Admits (z i) := by
  have hsize : i.val < cuts.size := (Array.getElem?_eq_some_iff.mp hi).1
  constructor
  · intro h
    refine ⟨fun j e hne he => h j e ?_, h i c' (Array.getElem?_setIfInBounds_self_of_lt hsize)⟩
    rw [Array.getElem?_setIfInBounds_ne (fun hij => hne (Fin.ext hij.symm))]
    exact he
  · intro h j e he
    by_cases hij : j = i
    · subst hij
      rw [Array.getElem?_setIfInBounds_self_of_lt hsize] at he
      rw [← Option.some.inj he]
      exact h.2
    · rw [Array.getElem?_setIfInBounds_ne (fun hv => hij (Fin.ext hv.symm))] at he
      exact h.1 j e hij he

/-- Another cut at a position, which leaves some of what the old one left. -/
theorem mem_box_recut {n : Nat} {cuts : Array Cut} {i : Fin n} {c c' : Cut}
    (hi : cuts[i.val]? = some c) {P : ℤ → Prop} (hc : ∀ k, c'.Admits k ↔ c.Admits k ∧ P k)
    {z : Fin n → ℤ} : z ∈ box n (cuts.setIfInBounds i c') ↔ z ∈ box n cuts ∧ P (z i) := by
  rw [mem_box_set hi, hc]
  constructor
  · intro h
    refine ⟨fun j e he => ?_, h.2.2⟩
    by_cases hij : j = i
    · subst hij
      rw [hi] at he
      rw [← Option.some.inj he]
      exact h.2.1
    · exact h.1 j e hij he
  · intro h
    exact ⟨fun j e _ he => h.1 j e he, h.1 i c hi, h.2⟩

/-- An assignment of a box stays in it when one value moves to another one that the cut leaves. -/
theorem update_mem_box {n : Nat} {cuts : Array Cut} {i : Fin n} {c : Cut}
    (hi : cuts[i.val]? = some c) {k : ℤ} (hk : c.Admits k) {z : Fin n → ℤ}
    (hz : z ∈ box n cuts) : Function.update z i k ∈ box n cuts := by
  intro j e he
  by_cases hij : j = i
  · subst hij
    rw [hi] at he
    rw [Function.update_self, ← Option.some.inj he]
    exact hk
  · rw [Function.update_of_ne hij]
    exact hz j e he

/-! ## Division -/

/-- The boxes of two nodes divide that of a node. -/
structure Node.Parts (n : Nat) (node a b : Node α) : Prop where
  left_nonempty : (box n a.cuts).Nonempty
  right_nonempty : (box n b.cuts).Nonempty
  disjoint : Disjoint (box n a.cuts) (box n b.cuts)
  union : box n a.cuts ∪ box n b.cuts = box n node.cuts

namespace Node.Parts

variable {n : Nat} {node a b : Node α}

theorem symm (h : Parts n node a b) : Parts n node b a :=
  ⟨h.right_nonempty, h.left_nonempty, h.disjoint.symm, by rw [Set.union_comm, h.union]⟩

theorem left_subset (h : Parts n node a b) : box n a.cuts ⊆ box n node.cuts := by
  rw [← h.union]
  exact Set.subset_union_left

theorem left_ssubset (h : Parts n node a b) : box n a.cuts ⊂ box n node.cuts := by
  refine ⟨h.left_subset, fun hsub => ?_⟩
  obtain ⟨z, hz⟩ := h.right_nonempty
  have hzn : z ∈ box n node.cuts := h.symm.left_subset hz
  exact Set.disjoint_left.mp h.disjoint (hsub hzn) hz

end Node.Parts

/-- Two nodes take the lower and the upper half of a node's box, cut at one position between a whole
number and the next one. The box has points on both sides. -/
structure Node.Halves (n : Nat) (node a b : Node α) (i : Fin n) (d : ℤ) : Prop where
  below : ∀ z, z ∈ box n a.cuts ↔ z ∈ box n node.cuts ∧ z i ≤ d
  above : ∀ z, z ∈ box n b.cuts ↔ z ∈ box n node.cuts ∧ d + 1 ≤ z i
  update_mem : ∀ z ∈ box n node.cuts,
    Function.update z i d ∈ box n node.cuts ∧ Function.update z i (d + 1) ∈ box n node.cuts

theorem halves_of_recut {n : Nat} {node a b : Node α} {i : Fin n} {c : Cut} {d : ℤ}
    (hi : node.cuts[i.val]? = some c) (hd : c.Admits d) (hd1 : c.Admits (d + 1))
    (ha : a.cuts = node.cuts.setIfInBounds i { c with atMost := some d })
    (hb : b.cuts = node.cuts.setIfInBounds i { c with atLeast := some (d + 1) }) :
    Node.Halves n node a b i d where
  below z := by
    rw [ha]
    exact mem_box_recut hi (P := fun k => k ≤ d) fun k => Cut.admits_atMost hd
  above z := by
    rw [hb]
    exact mem_box_recut hi (P := fun k => d + 1 ≤ k) fun k => Cut.admits_atLeast hd1
  update_mem z hz := ⟨update_mem_box hi hd hz, update_mem_box hi hd1 hz⟩

namespace Node.Halves

variable {n : Nat} {node a b : Node α} {i : Fin n} {d : ℤ}

/-- The lower half has what comes of moving a point of the node down to the cut. -/
theorem update_mem_below (h : Halves n node a b i d) {z : Fin n → ℤ} (hz : z ∈ box n node.cuts) :
    Function.update z i d ∈ box n a.cuts := by
  rw [h.below, Function.update_self]
  exact ⟨(h.update_mem z hz).1, le_refl d⟩

theorem update_mem_above (h : Halves n node a b i d) {z : Fin n → ℤ} (hz : z ∈ box n node.cuts) :
    Function.update z i (d + 1) ∈ box n b.cuts := by
  rw [h.above, Function.update_self]
  exact ⟨(h.update_mem z hz).2, le_refl (d + 1)⟩

/-- The halves of a box that is not empty are its parts. -/
theorem parts (h : Halves n node a b i d) (hne : (box n node.cuts).Nonempty) :
    Parts n node a b := by
  obtain ⟨z, hz⟩ := hne
  refine ⟨⟨_, h.update_mem_below hz⟩, ⟨_, h.update_mem_above hz⟩, ?_, ?_⟩
  · rw [Set.disjoint_left]
    intro y hya hyb
    have h1 := ((h.below y).mp hya).2
    have h2 := ((h.above y).mp hyb).2
    omega
  · ext y
    rw [Set.mem_union, h.below, h.above]
    constructor
    · rintro (h | h)
      · exact h.1
      · exact h.1
    · intro hy
      rcases le_or_gt (y i) d with h | h
      · exact Or.inl ⟨hy, h⟩
      · exact Or.inr ⟨hy, h⟩

end Node.Halves

namespace Outcome

variable {n : Nat} {node kid : Node α} {o : Outcome α}

/-- A child's box lies strictly inside that of the node. -/
theorem box_of_mem_children (hparts : ∀ {a b : Node α}, o = .branched a b → Node.Parts n node a b)
    (hkid : kid ∈ o.children) : (box n kid.cuts).Nonempty ∧ box n kid.cuts ⊂ box n node.cuts := by
  cases o with
  | closed fate => cases hkid
  | ceilingPassed count ceiling => cases hkid
  | branched a b =>
    have hp := hparts rfl
    rw [Outcome.children, List.mem_cons, List.mem_singleton] at hkid
    rcases hkid with rfl | rfl
    · exact ⟨hp.left_nonempty, hp.left_ssubset⟩
    · exact ⟨hp.right_nonempty, hp.symm.left_ssubset⟩

theorem pairwise_children
    (hparts : ∀ {a b : Node α}, o = .branched a b → Node.Parts n node a b) :
    o.children.Pairwise fun a b => Disjoint (box n a.cuts) (box n b.cuts) := by
  cases o with
  | closed fate => exact List.Pairwise.nil
  | ceilingPassed count ceiling => exact List.Pairwise.nil
  | branched a b => exact List.pairwise_pair.mpr (hparts rfl).disjoint

end Outcome

/-! ## Disjoint boxes -/

/-- The boxes of pending nodes are disjoint from each other, and from those that were come to or
strictly inside them. -/
structure Apart (n : Nat) (seen : Set (Array Cut)) (pending : List (Node α)) : Prop where
  nonempty : ∀ node ∈ pending, (box n node.cuts).Nonempty
  disjoint : pending.Pairwise fun a b => Disjoint (box n a.cuts) (box n b.cuts)
  fresh : ∀ cuts ∈ seen, ∀ node ∈ pending,
    Disjoint (box n cuts) (box n node.cuts) ∨ box n node.cuts ⊂ box n cuts

namespace Apart

variable {n : Nat} {seen seen' : Set (Array Cut)} {pending pending' rest : List (Node α)}
  {node : Node α}

/-- The box of a pending node was not come to. -/
theorem cuts_notMem (h : Apart n seen pending) (hnode : node ∈ pending) : node.cuts ∉ seen := by
  intro hmem
  rcases h.fresh node.cuts hmem node hnode with hd | hs
  · rw [disjoint_self] at hd
    exact (h.nonempty node hnode).ne_empty hd
  · exact hs.2 (le_refl _)

theorem anti (h : Apart n seen pending) (hsub : seen' ⊆ seen) : Apart n seen' pending :=
  ⟨h.nonempty, h.disjoint, fun cuts hcuts => h.fresh cuts (hsub hcuts)⟩

theorem of_perm (h : Apart n seen pending) (hp : pending'.Perm pending) :
    Apart n seen pending' where
  nonempty node hnode := h.nonempty node (hp.mem_iff.mp hnode)
  disjoint := (hp.pairwise_iff fun hab => hab.symm).mpr h.disjoint
  fresh cuts hcuts node hnode := h.fresh cuts hcuts node (hp.mem_iff.mp hnode)

/-- A pending node gives way to children that divide its box. -/
theorem of_outcome (h : Apart n seen (node :: rest)) {o : Outcome α}
    (hparts : ∀ {a b : Node α}, o = .branched a b → Node.Parts n node a b)
    (hseen : ∀ cuts ∈ seen', cuts = node.cuts ∨ cuts ∈ seen) :
    Apart n seen' (o.children ++ rest) := by
  obtain ⟨hhead, htail⟩ := List.pairwise_cons.mp h.disjoint
  have hchild : ∀ kid ∈ o.children,
      (box n kid.cuts).Nonempty ∧ box n kid.cuts ⊂ box n node.cuts :=
    fun kid => Outcome.box_of_mem_children hparts
  refine ⟨fun other hother => ?_, ?_, fun cuts hcuts other hother => ?_⟩
  · rcases List.mem_append.mp hother with hkid | hrest
    · exact (hchild other hkid).1
    · exact h.nonempty other (List.mem_cons_of_mem node hrest)
  · rw [List.pairwise_append]
    refine ⟨Outcome.pairwise_children hparts, htail, fun kid hkid other hother => ?_⟩
    exact (hhead other hother).mono_left (hchild kid hkid).2.1
  · rcases List.mem_append.mp hother with hkid | hrest
    · rcases hseen cuts hcuts with rfl | hold
      · exact Or.inr (hchild other hkid).2
      -- against the boxes seen before, a child takes over what its parent had
      · rcases h.fresh cuts hold node List.mem_cons_self with hd | hs
        · exact Or.inl (hd.mono_right (hchild other hkid).2.1)
        · exact Or.inr ((hchild other hkid).2.trans hs)
    · rcases hseen cuts hcuts with rfl | hold
      · exact Or.inl (hhead other hrest)
      · exact h.fresh cuts hold other (List.mem_cons_of_mem node hrest)

end Apart

/-! ## Disjoint boxes along a schedule -/

theorem mem_boxes_of_mark {visited : Visited} {node : Node α} {cuts : Array Cut}
    (h : cuts ∈ (visited.mark node).2.boxes) : cuts = node.cuts ∨ cuts ∈ visited.boxes := by
  cases he : visited.enabled with
  | false =>
    rw [Visited.mark_of_not_enabled he] at h
    exact Or.inr h
  | true => exact (Visited.mem_boxes_mark he node cuts).mp h

/-- The boxes of the pending nodes are disjoint from each other, and from those that were visited
or strictly inside them. -/
structure Run.Separated (n : Nat) (r : Run α) : Prop where
  nonempty : ∀ node ∈ r.pending, (box n node.cuts).Nonempty
  disjoint : r.pending.Pairwise fun a b => Disjoint (box n a.cuts) (box n b.cuts)
  fresh : ∀ cuts ∈ r.state.visited.boxes, ∀ node ∈ r.pending,
    Disjoint (box n cuts) (box n node.cuts) ∨ box n node.cuts ⊂ box n cuts

namespace Run.Separated

variable {n : Nat} {r : Run α}

theorem apart (h : r.Separated n) : Apart n {cuts | cuts ∈ r.state.visited.boxes} r.pending :=
  ⟨h.nonempty, h.disjoint, h.fresh⟩

theorem of_apart (h : Apart n {cuts | cuts ∈ r.state.visited.boxes} r.pending) :
    r.Separated n :=
  ⟨h.nonempty, h.disjoint, h.fresh⟩

/-- The box of a pending node is new. -/
theorem isNew (h : r.Separated n) {node : Node α} (hnode : node ∈ r.pending) :
    (r.state.visited.mark node).1 = true := by
  cases he : r.state.visited.enabled with
  | false => rw [Visited.mark_of_not_enabled he]
  | true =>
    rw [Visited.mark_fst he]
    exact h.apart.cuts_notMem hnode

end Run.Separated

variable [Scalar α]

/-- A visit marks the box of its node, or leaves the marks as they are. -/
theorem visited_of_visit {search : Search α} {elapsed : Nat} {σ : State α} {node : Node α}
    {v : Visit α} (h : visit search elapsed σ node = .ok v) :
    v.state.visited = (σ.visited.mark node).2 ∨ v.state.visited = σ.visited := by
  cases Visit.course_of_visit h with
  | outOfBudget h => exact Or.inr rfl
  | seenBefore | unpromising | noPoint | overCeiling | unusable | whole | dominated | split =>
    exact Or.inl rfl

/-- Visiting a node whose children divide its box keeps the boxes apart. -/
theorem Run.Separated.of_advances {n : Nat} {search : Search α} {r s : Run α}
    (hparts : ∀ {elapsed : Nat} {node : Node α} {v : Visit α} {a b : Node α}, node ∈ r.pending →
      visit search elapsed r.state node = .ok v → v.outcome = .branched a b →
      Node.Parts n node a b)
    (hr : r.Separated n) (h : Advances search r s) : s.Separated n := by
  obtain ⟨before, after, node, elapsed, v, hperm, hvisit, rfl⟩ := h.exists_visit
  have hnode : node ∈ r.pending := hperm.mem_iff.mpr List.mem_cons_self
  refine of_apart ?_
  rw [pending_absorb]
  refine (hr.apart.of_perm hperm.symm).of_outcome (hparts hnode hvisit) fun cuts hcuts => ?_
  rw [state_absorb] at hcuts
  rcases visited_of_visit hvisit with hmark | hsame
  · rw [hmark] at hcuts
    exact mem_boxes_of_mark hcuts
  · rw [hsame] at hcuts
    exact Or.inr hcuts

end BranchBound
