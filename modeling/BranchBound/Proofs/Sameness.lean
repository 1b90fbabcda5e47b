import BranchBound.Proofs.Building
import BranchBound.Proofs.Double.Saturation
import BranchBound.Proofs.Tightening
import BranchBound.Visited

/-!
# Nodes that act alike

Two nodes over the same variables, each reached from a root by branching, have the same box exactly
if they tighten all valid bounds in the same way (`sameBox_means_actsLike`). So a set of boxes that
were seen before tells nodes apart by what they do, whatever the values were that led to them.

The bounds of a node tell what they are when they are laid over bounds that are infinite. They are
kept as machine integers and laid as doubles, and on the way nothing is confused
(`Double.toInt_eq_of_ofInt_eq`): they were doubles before. For bounds that were not, this would be
wrong, since doubles do not tell all machine integers apart.
-/

namespace BranchBound

open Scalar

/-! ## Branching from a root -/

/-- One branch: its side, its position, its value, and the estimate that the child is given. -/
structure Branch (α : Type) where
  direction : Direction
  position : Nat
  value : α
  estimate : α

namespace Branch

variable {α : Type} [Scalar α]

/-- What a branch makes of the cut at its position. -/
def recut (b : Branch α) (c : Cut) : Cut :=
  match b.direction with
  | .down => { c with atMost := some (toInt (floor b.value)) }
  | .up => { c with atLeast := some (toInt (ceil b.value)) }

/-- What a branch makes of the cuts of a node. -/
def cutsBelow (b : Branch α) (cuts : Array Cut) : Array Cut := cuts.modify b.position b.recut

variable {b b' : Branch α}

theorem recut_comm (h : b.direction ≠ b'.direction) (c : Cut) :
    b.recut (b'.recut c) = b'.recut (b.recut c) := by
  unfold recut
  cases hb : b.direction <;> cases hb' : b'.direction
  · exact absurd (hb.trans hb'.symm) h
  · rfl
  · rfl
  · exact absurd (hb.trans hb'.symm) h

/-- Branches at two positions, or on the two sides at one, come to the same cuts in either order. -/
theorem cutsBelow_comm (h : b.position ≠ b'.position ∨ b.direction ≠ b'.direction)
    (cuts : Array Cut) : b.cutsBelow (b'.cutsBelow cuts) = b'.cutsBelow (b.cutsBelow cuts) := by
  unfold cutsBelow
  refine Array.ext_getElem? fun j => ?_
  simp only [Array.getElem?_modify]
  by_cases hj : b.position = j
  · by_cases hj' : b'.position = j
    · have hside := h.resolve_left (not_not.mpr (hj.trans hj'.symm))
      simp only [if_pos hj, if_pos hj', Option.map_map]
      congr 1
      exact funext (recut_comm hside)
    · simp only [if_pos hj, if_neg hj']
  · simp only [if_neg hj]

end Branch

namespace Node

section

variable {α : Type} [Scalar α]

/-- The node that branches lead to, one after the other. -/
def branchAll (node : Node α) (branches : List (Branch α)) : Except (Error α) (Node α) :=
  branches.foldlM (fun node b => node.branch b.direction b.position b.value b.estimate) node

/-- Whether a node comes from a root over given variables by branching. -/
def ReachedFrom (vars : Array Nat) (node : Node α) : Prop :=
  ∃ estimate branches, (root vars estimate).branchAll branches = .ok node

/-- Whether two nodes make the same of all bounds that are valid. -/
def ActsLike (a b : Node α) : Prop :=
  ∀ lower upper : Array α, (∀ v ∈ lower, isNaN v = false) → (∀ v ∈ upper, isNaN v = false) →
    a.tighten lower upper = b.tighten lower upper

variable {node kid a b : Node α}

omit [Scalar α] in
theorem sameBox_iff : a.sameBox b = true ↔ a.cuts = b.cuts := beq_iff_eq

/-- What a node does to bounds depends on its variables and its cuts only. -/
theorem actsLike_of_sameBox (hvars : a.vars = b.vars) (h : a.sameBox b = true) : a.ActsLike b := by
  intro lower upper _ _
  unfold tighten overrides
  rw [hvars, sameBox_iff.mp h]

omit [Scalar α] in
theorem child_ok {i : Nat} (h : i < node.cuts.size) (f : Cut → Cut) (estimate : α) :
    ∃ kid, node.child i f estimate = .ok kid ∧ kid.vars = node.vars ∧
      kid.cuts = node.cuts.modify i f := by
  have hc := Array.getElem?_eq_getElem h
  refine ⟨_, child_eq_ok_iff.mpr ⟨_, hc, rfl⟩, rfl, ?_⟩
  refine Array.ext_getElem? fun j => ?_
  show (node.cuts.setIfInBounds i (f node.cuts[i]))[j]? = _
  rw [Array.getElem?_modify]
  split
  · rename_i heq
    rw [← heq, Array.getElem?_setIfInBounds_self_of_lt h, hc]
    rfl
  · rename_i hne
    exact Array.getElem?_setIfInBounds_ne hne

/-- A branch at a position of a node has a child, with the cuts that the branch makes. -/
theorem branch_ok {br : Branch α} (h : br.position < node.cuts.size) :
    ∃ kid, node.branch br.direction br.position br.value br.estimate = .ok kid ∧
      kid.vars = node.vars ∧ kid.cuts = br.cutsBelow node.cuts := by
  unfold Branch.cutsBelow Branch.recut
  cases hdirection : br.direction with
  | down => exact child_ok h _ _
  | up => exact child_ok h _ _

theorem of_branch_eq_ok {br : Branch α}
    (h : node.branch br.direction br.position br.value br.estimate = .ok kid) :
    kid.vars = node.vars ∧ kid.cuts = br.cutsBelow node.cuts := by
  have hlt : br.position < node.cuts.size := by
    unfold branch at h
    split at h
    · obtain ⟨c, hc, -⟩ := child_eq_ok_iff.mp h
      exact (Array.getElem?_eq_some_iff.mp hc).1
    · obtain ⟨c, hc, -⟩ := child_eq_ok_iff.mp h
      exact (Array.getElem?_eq_some_iff.mp hc).1
  obtain ⟨kid', hkid', hcuts⟩ := branch_ok hlt
  rw [Except.ok.inj (h.symm.trans hkid')]
  exact hcuts

/-- Branches at positions of a node have a node below it, with the cuts that they make one after the
other. -/
theorem branchAll_ok (branches : List (Branch α))
    (h : ∀ br ∈ branches, br.position < node.cuts.size) :
    ∃ kid, node.branchAll branches = .ok kid ∧ kid.vars = node.vars ∧
      kid.cuts = branches.foldl (fun cuts br => br.cutsBelow cuts) node.cuts := by
  induction branches generalizing node with
  | nil => exact ⟨node, rfl, rfl, rfl⟩
  | cons br rest ih =>
    obtain ⟨kid, hkid, hvars, hcuts⟩ := branch_ok (h br List.mem_cons_self)
    have hsize : kid.cuts.size = node.cuts.size := by
      rw [hcuts]
      exact Array.size_modify
    obtain ⟨last, hlast, hvars', hcuts'⟩ := ih fun b hb =>
      hsize.symm ▸ h b (List.mem_cons_of_mem br hb)
    refine ⟨last, ?_, hvars'.trans hvars, ?_⟩
    · unfold branchAll
      rw [List.foldlM_cons, hkid]
      exact hlast
    · rw [hcuts', hcuts, List.foldl_cons]

/-- Branches at two positions of a node, or on the two sides at one, lead to the same box in either
order. -/
theorem sameBox_of_swap {first second : Branch α} (hfirst : first.position < node.cuts.size)
    (hsecond : second.position < node.cuts.size)
    (hne : first.position ≠ second.position ∨ first.direction ≠ second.direction) :
    ∃ kid kid', node.branchAll [first, second] = .ok kid ∧
      node.branchAll [second, first] = .ok kid' ∧ kid.sameBox kid' = true := by
  obtain ⟨kid, hkid, -, hcuts⟩ := branchAll_ok [first, second]
    (List.forall_mem_cons.mpr ⟨hfirst, List.forall_mem_singleton.mpr hsecond⟩)
  obtain ⟨kid', hkid', -, hcuts'⟩ := branchAll_ok [second, first]
    (List.forall_mem_cons.mpr ⟨hsecond, List.forall_mem_singleton.mpr hfirst⟩)
  refine ⟨kid, kid', hkid, hkid', sameBox_iff.mpr ?_⟩
  rw [hcuts, hcuts']
  exact (Branch.cutsBelow_comm hne node.cuts).symm

omit [Scalar α] in
/-- A set that is on has the boxes of the nodes that were marked. -/
theorem mem_boxes_foldl_mark (earlier : List (Node α)) {visited : Visited}
    (hon : visited.enabled = true) (cuts : Array Cut) :
    (earlier.foldl (fun visited other => (visited.mark other).2) visited).enabled = true ∧
      (cuts ∈ (earlier.foldl (fun visited other => (visited.mark other).2) visited).boxes ↔
        cuts ∈ visited.boxes ∨ ∃ other ∈ earlier, cuts = other.cuts) := by
  induction earlier generalizing visited with
  | nil => simp [hon]
  | cons first rest ih =>
    have hon' : (visited.mark first).2.enabled = true := by
      unfold Visited.mark
      rw [if_pos hon]
      exact hon
    obtain ⟨hlast, hmem⟩ := ih hon'
    refine ⟨hlast, ?_⟩
    rw [List.foldl_cons, hmem, Visited.mem_boxes_mark hon]
    simp only [List.exists_mem_cons_iff]
    tauto

omit [Scalar α] in
/-- A mark tells whether a node has a box that no node had that was marked before. -/
theorem mark_after_iff {earlier : List (Node α)} :
    ((earlier.foldl (fun visited other => (visited.mark other).2)
      ({ enabled := true } : Visited)).mark node).1 = true ↔
      ∀ other ∈ earlier, ¬other.sameBox node = true := by
  obtain ⟨hon, hmem⟩ :=
    mem_boxes_foldl_mark earlier (show ({ enabled := true } : Visited).enabled = true from rfl)
      node.cuts
  rw [Visited.mark_fst hon, hmem]
  simp only [Std.HashSet.not_mem_empty, false_or, not_exists, not_and, sameBox_iff]
  exact forall₂_congr fun other _ => not_congr eq_comm

end

/-! ## Cuts of doubles -/

end Node

/-- Whether the bounds of a cut are whole doubles, moved into the range of machine integers. -/
def Cut.Rounded (c : Cut) : Prop :=
  ∀ k, c.atLeast = some k ∨ c.atMost = some k → ∃ x, Double.IsWhole x ∧ Double.toInt x = k

theorem Branch.rounded_recut (b : Branch Float) {c : Cut} (h : c.Rounded) :
    (b.recut c).Rounded := by
  intro k hk
  unfold Branch.recut at hk
  split at hk
  · rcases hk with hk | hk
    · exact h k (Or.inl hk)
    · exact ⟨floor b.value, Double.isWhole_floor b.value, Option.some.inj hk⟩
  · rcases hk with hk | hk
    · exact ⟨ceil b.value, Double.isWhole_ceil b.value, Option.some.inj hk⟩
    · exact h k (Or.inr hk)

namespace Cut

/-- Of an infinity and a rational number the rational one is the tighter bound. -/
theorem maxNum_negInf {v : Float} {q : ℚ} (h : Lawful.value v = .ofRat q) :
    maxNum (-Scalar.inf) v = v := by
  have hvalid : isNaN v = false := by rw [Lawful.isNaN_eq, h, Exact.isNaN_ofRat]
  have hlt : ¬v < -Scalar.inf := by
    rw [Lawful.lt_iff, h]
    exact fun hlt => Exact.not_ofRat_le_negInf q (Exact.le_of_lt hlt)
  unfold maxNum
  rw [if_neg (by decide), if_neg (by rw [hvalid]; exact Bool.false_ne_true), if_neg hlt]

theorem minNum_posInf {v : Float} {q : ℚ} (h : Lawful.value v = .ofRat q) :
    minNum Scalar.inf v = v := by
  have hvalid : isNaN v = false := by rw [Lawful.isNaN_eq, h, Exact.isNaN_ofRat]
  have hlt : ¬Scalar.inf < v := by
    rw [Lawful.lt_iff, h]
    exact Exact.not_posInf_lt _
  unfold minNum
  rw [if_neg (by decide), if_neg (by rw [hvalid]; exact Bool.false_ne_true), if_neg hlt]

variable {c c' : Cut}

/-- Laid over an infinite bound, the bound of a cut shows. -/
theorem Rounded.raise_negInf (h : c.Rounded) :
    c.raise (-Scalar.inf : Float) = c.atLeast.elim (-Scalar.inf) Double.ofInt := by
  unfold raise
  cases hk : c.atLeast with
  | none => rfl
  | some k =>
    obtain ⟨x, hx, rfl⟩ := h k (Or.inl hk)
    exact maxNum_negInf (Double.value_ofInt_toInt hx)

theorem Rounded.cap_posInf (h : c.Rounded) :
    c.cap (Scalar.inf : Float) = c.atMost.elim Scalar.inf Double.ofInt := by
  unfold cap
  cases hk : c.atMost with
  | none => rfl
  | some k =>
    obtain ⟨x, hx, rfl⟩ := h k (Or.inr hk)
    exact minNum_posInf (Double.value_ofInt_toInt hx)

/-- Bounds that come of whole doubles, beside an infinity for none, are told apart by the doubles
that they are laid as. -/
theorem eq_of_elim_ofInt_eq (infinity : Float) (hinf : ∀ q, Double.value infinity ≠ .ofRat q)
    {o o' : Option ℤ} (ho : ∀ k, o = some k → ∃ x, Double.IsWhole x ∧ Double.toInt x = k)
    (ho' : ∀ k, o' = some k → ∃ x, Double.IsWhole x ∧ Double.toInt x = k)
    (h : o.elim infinity Double.ofInt = o'.elim infinity Double.ofInt) : o = o' := by
  have hrational : ∀ {x : Float}, Double.IsWhole x →
      infinity ≠ Double.ofInt (Double.toInt x) := fun hx heq =>
    hinf _ ((congrArg Double.value heq).trans (Double.value_ofInt_toInt hx))
  cases o with
  | none =>
    cases o' with
    | none => rfl
    | some k =>
      obtain ⟨x, hx, rfl⟩ := ho' k rfl
      exact absurd h (hrational hx)
  | some k =>
    obtain ⟨x, hx, rfl⟩ := ho k rfl
    cases o' with
    | none => exact absurd h.symm (hrational hx)
    | some k' =>
      obtain ⟨y, hy, rfl⟩ := ho' k' rfl
      exact congrArg some (Double.toInt_eq_of_ofInt_eq hx hy h)

/-- Two cuts that do the same to infinite bounds are the same. -/
theorem Rounded.eq_of_laid (h : c.Rounded) (h' : c'.Rounded)
    (hraise : c.raise (-Scalar.inf : Float) = c'.raise (-Scalar.inf))
    (hcap : c.cap (Scalar.inf : Float) = c'.cap Scalar.inf) : c = c' := by
  rw [h.raise_negInf, h'.raise_negInf] at hraise
  rw [h.cap_posInf, h'.cap_posInf] at hcap
  have hlower := eq_of_elim_ofInt_eq (-Scalar.inf)
    (fun q hq => nomatch Double.value_negInf.symm.trans hq) (fun k hk => h k (Or.inl hk))
    (fun k hk => h' k (Or.inl hk)) hraise
  have hupper := eq_of_elim_ofInt_eq Scalar.inf
    (fun q hq => nomatch Double.value_posInf.symm.trans hq) (fun k hk => h k (Or.inr hk))
    (fun k hk => h' k (Or.inr hk)) hcap
  cases c
  cases c'
  exact congrArg₂ Cut.mk hlower hupper

end Cut

/-! ## Nodes that act alike -/

namespace Node

/-- A node over given variables with cuts that come of whole doubles. -/
structure Rounded (vars : Array Nat) (node : Node Float) : Prop where
  vars_eq : node.vars = vars
  size : node.cuts.size = vars.size
  cuts : ∀ c ∈ node.cuts, c.Rounded

variable {vars : Array Nat} {node kid a b : Node Float}

theorem rounded_root (vars : Array Nat) (estimate : Float) : (root vars estimate).Rounded vars where
  vars_eq := rfl
  size := Array.size_replicate
  cuts c hc := by
    rw [(Array.mem_replicate.mp hc).2]
    exact fun k hk => hk.elim (fun h => nomatch h) fun h => nomatch h

theorem Rounded.of_branch (hnode : node.Rounded vars) {br : Branch Float}
    (h : node.branch br.direction br.position br.value br.estimate = .ok kid) :
    kid.Rounded vars := by
  obtain ⟨hvars, hcuts⟩ := of_branch_eq_ok h
  refine ⟨hvars.trans hnode.vars_eq, ?_, fun c hc => ?_⟩
  · rw [hcuts]
    exact Array.size_modify.trans hnode.size
  · rw [hcuts] at hc
    obtain ⟨j, hj⟩ := Array.mem_iff_getElem?.mp hc
    unfold Branch.cutsBelow at hj
    rw [Array.getElem?_modify] at hj
    split at hj
    · obtain ⟨c₀, hc₀, rfl⟩ := Option.map_eq_some_iff.mp hj
      exact br.rounded_recut (hnode.cuts c₀ (Array.mem_of_getElem? hc₀))
    · exact hnode.cuts c (Array.mem_of_getElem? hj)

theorem ReachedFrom.rounded (h : node.ReachedFrom vars) : node.Rounded vars := by
  obtain ⟨estimate, branches, hbranches⟩ := h
  exact invariant_of_foldlM (fun hstep hs => hs.of_branch hstep) hbranches
    (rounded_root vars estimate)

/-- Two nodes that do the same to infinite bounds have the same box. -/
theorem Rounded.sameBox_of_actsLike (hvars : vars.toList.Nodup) (ha : a.Rounded vars)
    (hb : b.Rounded vars) (h : a.ActsLike b) : a.sameBox b = true := by
  obtain ⟨n, hn⟩ : ∃ n, ∀ var ∈ vars, var < n := by
    obtain ⟨n, hn⟩ := Finset.exists_nat_subset_range vars.toList.toFinset
    refine ⟨n, fun var hvar => Finset.mem_range.mp (hn ?_)⟩
    exact List.mem_toFinset.mpr (Array.mem_toList_iff.mpr hvar)
  obtain ⟨la, ua, htighten, hcuts, -⟩ := exists_tighten_entries (ha.vars_eq ▸ hn) (ha.vars_eq ▸ hvars)
    (ha.size.trans (congrArg Array.size ha.vars_eq.symm)) (fun _ => (-Scalar.inf : Float))
    fun _ => Scalar.inf
  obtain ⟨lb, ub, htighten', hcuts', -⟩ := exists_tighten_entries (hb.vars_eq ▸ hn) (hb.vars_eq ▸ hvars)
    (hb.size.trans (congrArg Array.size hb.vars_eq.symm)) (fun _ => (-Scalar.inf : Float))
    fun _ => Scalar.inf
  have hvalid : ∀ {v w : Float}, isNaN w = false → v ∈ tabulate n (fun _ => w) →
      isNaN v = false := fun hw hv => by
    obtain ⟨_, -, rfl⟩ := mem_tabulate.mp hv
    exact hw
  have hsame := h (tabulate n fun _ => -Scalar.inf) (tabulate n fun _ => Scalar.inf)
    (fun _ => hvalid (by decide)) fun _ => hvalid (by decide)
  rw [htighten, htighten'] at hsame
  obtain ⟨hlower, hupper⟩ := Prod.mk.inj (Except.ok.inj hsame)
  have hentry : ∀ {f g : Nat → Float}, tabulate n f = tabulate n g → ∀ var < n, f var = g var :=
    fun heq var hvar => by
      have hget := congrArg (·[var]?) heq
      simp only [getElem?_tabulate_of_lt _ hvar] at hget
      exact Option.some.inj hget
  refine sameBox_iff.mpr (Array.ext (ha.size.trans hb.size.symm) fun i hi hi' => ?_)
  have hi_lt : i < vars.size := ha.size ▸ hi
  have hvar := Array.getElem?_eq_getElem hi_lt
  obtain ⟨hraise, hcap⟩ := hcuts i vars[i] a.cuts[i] (by rw [ha.vars_eq, hvar])
    (Array.getElem?_eq_getElem hi)
  obtain ⟨hraise', hcap'⟩ := hcuts' i vars[i] b.cuts[i] (by rw [hb.vars_eq, hvar])
    (Array.getElem?_eq_getElem hi')
  have hlt := hn _ (Array.getElem_mem hi_lt)
  refine (ha.cuts _ (Array.getElem_mem hi)).eq_of_laid (hb.cuts _ (Array.getElem_mem hi')) ?_ ?_
  · rw [← hraise, ← hraise', hentry hlower _ hlt]
  · rw [← hcap, ← hcap', hentry hupper _ hlt]

end Node

/-- Nodes over distinct variables that come from roots by branching, at any values, have the same
box exactly if they act alike on all valid bounds. So branches at two positions, or on the two
sides at one, may be swapped. In any sequence of marks, one finds its node new exactly if no node
that was marked before acts like it. -/
theorem sameBox_means_actsLike {vars : Array Nat} (hvars : vars.toList.Nodup) :
    (∀ a b : Node Float, a.ReachedFrom vars → b.ReachedFrom vars →
      (a.sameBox b = true ↔ a.ActsLike b)) ∧
    (∀ (node : Node Float) (first second : Branch Float), node.ReachedFrom vars →
      first.position < vars.size → second.position < vars.size →
      first.position ≠ second.position ∨ first.direction ≠ second.direction →
      ∃ kid kid', node.branchAll [first, second] = .ok kid ∧
        node.branchAll [second, first] = .ok kid' ∧ kid.sameBox kid' = true) ∧
    ∀ (earlier : List (Node Float)) (node : Node Float),
      (∀ other ∈ earlier, other.ReachedFrom vars) → node.ReachedFrom vars →
      (((earlier.foldl (fun visited other => (visited.mark other).2)
          ({ enabled := true } : Visited)).mark node).1 = true ↔
        ∀ other ∈ earlier, ¬other.ActsLike node) := by
  have hiff : ∀ a b : Node Float, a.ReachedFrom vars → b.ReachedFrom vars →
      (a.sameBox b = true ↔ a.ActsLike b) := fun a b ha hb =>
    ⟨Node.actsLike_of_sameBox (ha.rounded.vars_eq.trans hb.rounded.vars_eq.symm),
      ha.rounded.sameBox_of_actsLike hvars hb.rounded⟩
  refine ⟨hiff, fun node first second hnode hfirst hsecond => ?_,
    fun earlier node hearlier hnode => ?_⟩
  · rw [← hnode.rounded.size] at hfirst hsecond
    exact Node.sameBox_of_swap hfirst hsecond
  · rw [Node.mark_after_iff]
    exact forall₂_congr fun other hother => not_congr (hiff other node (hearlier other hother) hnode)

/-- Two values between the same whole numbers lead to nodes that act alike, whatever was estimated,
and beyond the machine integers all values do. -/
theorem actsLike_between : ∃ a b c d : Node Float,
    (Node.root #[0, 2] 0.0).branchAll [⟨.down, 0, 0.5, 1.0⟩] = .ok a ∧
    (Node.root #[0, 2] 3.0).branchAll [⟨.down, 0, 4.5, 1.0⟩, ⟨.down, 0, 0.7, 9.0⟩] = .ok b ∧
    (Node.root #[0, 2] 0.0).branchAll [⟨.up, 1, 1e19, 1.0⟩] = .ok c ∧
    (Node.root #[0, 2] 0.0).branchAll [⟨.up, 1, 1e300, 1.0⟩] = .ok d ∧
    a.ActsLike b ∧ c.ActsLike d ∧ ¬a.ActsLike c := by
  obtain ⟨a, b, c, d, ha, hb, hc, hd, hab, hcd, hac⟩ : ∃ a b c d : Node Float,
      (Node.root #[0, 2] 0.0).branchAll [⟨.down, 0, 0.5, 1.0⟩] = .ok a ∧
      (Node.root #[0, 2] 3.0).branchAll [⟨.down, 0, 4.5, 1.0⟩, ⟨.down, 0, 0.7, 9.0⟩] = .ok b ∧
      (Node.root #[0, 2] 0.0).branchAll [⟨.up, 1, 1e19, 1.0⟩] = .ok c ∧
      (Node.root #[0, 2] 0.0).branchAll [⟨.up, 1, 1e300, 1.0⟩] = .ok d ∧
      a.sameBox b = true ∧ c.sameBox d = true ∧ ¬a.sameBox c = true :=
    ⟨_, _, _, _, rfl, rfl, rfl, rfl, by decide +kernel, by decide +kernel, by decide +kernel⟩
  obtain ⟨hiff, -, -⟩ := @sameBox_means_actsLike #[0, 2] (by decide)
  exact ⟨a, b, c, d, ha, hb, hc, hd, (hiff a b ⟨_, _, ha⟩ ⟨_, _, hb⟩).mp hab,
    (hiff c d ⟨_, _, hc⟩ ⟨_, _, hd⟩).mp hcd, mt (hiff a c ⟨_, _, ha⟩ ⟨_, _, hc⟩).mpr hac⟩

end BranchBound
