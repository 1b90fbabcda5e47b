import BranchBound.Proofs.Coverage
import BranchBound.Proofs.Progress
import Mathlib.Algebra.BigOperators.Ring.Finset
import Mathlib.Algebra.Order.BigOperators.Group.List
import Mathlib.Data.Int.Interval
import Mathlib.Data.Pi.Interval
import Mathlib.Data.Set.Card

/-!
# Counting visits

How many nodes a search can come to if the whole variables have finite bounds and the points that it
branches on are within them.

Every node has some whole assignments left, and its children divide them. So twice the number of
assignments that are left to the pending nodes, less one for each, falls with every visit
(`Run.Counted.of_advances`), and a search visits fewer than twice as many nodes as there are
assignments.
-/

namespace BranchBound

/-! ## Assignments that are left -/

section

variable {α : Type} {n : Nat} {lo hi : Fin n → ℤ} {node a b : Node α}

/-- The number of whole assignments within bounds that a node leaves. -/
noncomputable def Node.room (lo hi : Fin n → ℤ) (node : Node α) : Nat :=
  (box n node.cuts ∩ Set.Icc lo hi).ncard

theorem finite_room (node : Node α) : (box n node.cuts ∩ Set.Icc lo hi).Finite :=
  (Set.finite_Icc lo hi).inter_of_right _

theorem Node.room_pos_iff : 0 < node.room lo hi ↔ (box n node.cuts ∩ Set.Icc lo hi).Nonempty :=
  Set.ncard_pos (finite_room node)

/-- The parts of a node divide what it leaves. -/
theorem Node.Parts.room_add (h : Node.Parts n node a b) :
    a.room lo hi + b.room lo hi = node.room lo hi := by
  unfold Node.room
  rw [← Set.ncard_union_eq _ (finite_room a) (finite_room b), ← Set.union_inter_distrib_right,
    h.union]
  exact h.disjoint.mono Set.inter_subset_left Set.inter_subset_left

/-- Halves on both sides of a value within the bounds leave something each. -/
theorem Node.Halves.room_pos {i : Fin n} {d : ℤ} (h : Node.Halves n node a b i d)
    (hroom : 0 < node.room lo hi) (hd : lo i ≤ d) (hd1 : d + 1 ≤ hi i) :
    0 < a.room lo hi ∧ 0 < b.room lo hi := by
  rw [Node.room_pos_iff] at hroom
  obtain ⟨z, hz, hzlo, hzhi⟩ := hroom
  -- moving one coordinate next to the value lands in one half or the other
  have hmem : ∀ k, lo i ≤ k → k ≤ hi i → Function.update z i k ∈ Set.Icc lo hi := by
    intro k hlow hhigh
    constructor
    · intro j
      by_cases hj : j = i
      · rw [hj, Function.update_self]
        exact hlow
      · rw [Function.update_of_ne hj]
        exact hzlo j
    · intro j
      by_cases hj : j = i
      · rw [hj, Function.update_self]
        exact hhigh
      · rw [Function.update_of_ne hj]
        exact hzhi j
  constructor
  · rw [Node.room_pos_iff]
    exact ⟨_, h.update_mem_below hz, hmem d hd (by omega)⟩
  · rw [Node.room_pos_iff]
    exact ⟨_, h.update_mem_above hz, hmem (d + 1) (by omega) hd1⟩

/-- The root leaves all assignments. -/
theorem room_root (hle : ∀ i, lo i ≤ hi i) {vars : Array Nat} {estimate : α} :
    ((Node.root vars estimate).room lo hi : ℤ) = ∏ i, (hi i - lo i + 1) := by
  have hall : box n (Node.root vars estimate).cuts ∩ Set.Icc lo hi = Set.Icc lo hi :=
    Set.inter_eq_right.mpr fun z _ => mem_box_root z
  unfold Node.room
  rw [hall, ← Finset.coe_Icc, Set.ncard_coe_finset, Pi.card_Icc, Nat.cast_prod]
  refine Finset.prod_congr rfl fun i _ => ?_
  rw [Int.card_Icc, Int.toNat_of_nonneg (by linarith [hle i])]
  ring

end

/-! ## Confined relaxations -/

/-- A relaxation keeps to the nodes' boxes and to bounds of the whole variables if all of its points
do. -/
def Relaxation.Confined (relaxation : Relaxation Exact) (problem : Problem Exact)
    (lo hi : Fin problem.integers.size → ℤ) : Prop :=
  ∀ ⦃call : Nat⦄ ⦃node : Node Exact⦄ ⦃cutoff : Option (Cutoff Exact)⦄ ⦃answer : Answer Exact⦄,
    node.IsOver problem → relaxation call node cutoff = .ok answer →
    answer.verdict.isFeasible = true → node.Contains answer.point ∧
      ∀ (i : Fin problem.integers.size) (q : ℚ),
        answer.point[problem.varAt i]? = some (.ofRat q) → (lo i : ℚ) ≤ q ∧ q ≤ hi i

/-- Whether the values of a point at the whole variables are between whole bounds. -/
def Problem.Between {α : Type} [Scalar α] [Lawful α] (problem : Problem α)
    (lo hi : Fin problem.integers.size → ℤ) (x : Array α) : Prop :=
  ∀ (i : Fin problem.integers.size) (v : α), x[problem.varAt i]? = some v →
    .ofRat (lo i) ≤ Lawful.value v ∧ Lawful.value v ≤ .ofRat (hi i)

theorem Relaxation.Confined.between {relaxation : Relaxation Exact} {problem : Problem Exact}
    {lo hi : Fin problem.integers.size → ℤ} (h : relaxation.Confined problem lo hi) {call : Nat}
    {node : Node Exact} {cutoff : Option (Cutoff Exact)} {answer : Answer Exact}
    (hover : node.IsOver problem) (hanswer : relaxation call node cutoff = .ok answer)
    (hfeasible : answer.verdict.isFeasible = true)
    (hfinite : ∀ v ∈ answer.point, Scalar.isFinite v = true) :
    node.Allows answer.point ∧ problem.Between lo hi answer.point := by
  obtain ⟨hin, hbounds⟩ := h hover hanswer hfeasible
  refine ⟨hin.allows, fun i v hv => ?_⟩
  obtain ⟨q, rfl⟩ := Exact.isFinite_iff.mp (hfinite v (Array.mem_of_getElem? hv))
  obtain ⟨hlow, hhigh⟩ := hbounds i q hv
  exact ⟨(Exact.ofRat_le _ _).mpr hlow, (Exact.ofRat_le _ _).mpr hhigh⟩

section

variable {α : Type} [Scalar α] [Lawful α] {search : Search α} {elapsed : Nat} {σ : State α}
  {node kid : Node α} {v : Visit α} {lo hi : Fin search.problem.integers.size → ℤ}
  (ht : Exact.ofRat 0 ≤ Lawful.value search.settings.integrality)
  (hin : ∀ {answer : Answer α} {events : List (Event α)},
    Visit.Takes search elapsed σ node answer events →
      node.Allows answer.point ∧ search.problem.Between lo hi answer.point)
  (hover : node.IsOver search.problem) (h : visit search elapsed σ node = .ok v)

include ht hin hover h

/-- The children of a visited node are its halves, cut at a whole number within the bounds. -/
theorem halves_of_visit (hkid : kid ∈ v.outcome.children) :
    ∃ (i : Fin search.problem.integers.size) (d : ℤ) (a b : Node α),
      v.outcome.children.Perm [a, b] ∧ a.depth = node.depth + 1 ∧ b.depth = node.depth + 1 ∧
      Node.Halves search.problem.integers.size node a b i d ∧ lo i ≤ d ∧ d + 1 ≤ hi i := by
  obtain ⟨answer, events, branching, s, takes, hbranching, hsplit, ho, -⟩ := children_of_visit h hkid
  obtain ⟨hallows, hbetween⟩ := hin takes
  obtain ⟨i, w, q, hw, hq, hfrac, hhalves⟩ := halves_of_split ht hover
    (Visit.finite_of_isUsable takes.usable) hallows hbranching hsplit
  obtain ⟨hlow, hhigh⟩ := hbetween i w hw
  rw [hq, Exact.ofRat_le] at hlow hhigh
  -- the value lies strictly between whole bounds, so its neighbours are within them
  have hd : lo i ≤ ⌊q⌋ := Int.le_floor.mpr hlow
  have hd1 : ⌊q⌋ + 1 ≤ hi i := by
    rw [← Exact.ceil_eq_floor_add_one hfrac]
    exact Int.ceil_le.mpr hhigh
  obtain ⟨-, -, -, hcontinued⟩ := Node.of_split hsplit (Or.inl rfl)
  obtain ⟨-, -, -, hforked⟩ := Node.of_split hsplit (Or.inr rfl)
  rw [ho, Outcome.children]
  rcases hhalves with hhalves | hhalves
  · exact ⟨i, ⌊q⌋, _, _, List.Perm.refl _, hcontinued, hforked, hhalves, hd, hd1⟩
  · exact ⟨i, ⌊q⌋, _, _, List.Perm.swap _ _ _, hforked, hcontinued, hhalves, hd, hd1⟩

/-- The children of a visited node have something left each, and divide what the node had left. -/
theorem room_of_visit (hroom : 0 < node.room lo hi) :
    (∀ kid ∈ v.outcome.children, 0 < kid.room lo hi) ∧
      (v.outcome.children.map fun kid => 2 * kid.room lo hi - 1).sum + 2 ≤ 2 * node.room lo hi := by
  by_cases hchildren : v.outcome.children = []
  · rw [hchildren]
    refine ⟨fun kid hkid => absurd hkid List.not_mem_nil, ?_⟩
    rw [List.map_nil, List.sum_nil]
    omega
  · obtain ⟨kid, hkid⟩ := List.exists_mem_of_ne_nil _ hchildren
    obtain ⟨i, d, a, b, hperm, -, -, hhalves, hd, hd1⟩ := halves_of_visit ht hin hover h hkid
    have hne : (box search.problem.integers.size node.cuts).Nonempty :=
      (Node.room_pos_iff.mp hroom).mono Set.inter_subset_left
    obtain ⟨ha, hb⟩ := hhalves.room_pos hroom hd hd1
    have hadd : a.room lo hi + b.room lo hi = node.room lo hi := (hhalves.parts hne).room_add
    refine ⟨fun kid hkid => ?_, ?_⟩
    · rcases List.mem_pair.mp (hperm.mem_iff.mp hkid) with rfl | rfl
      · exact ha
      · exact hb
    · rw [(hperm.map _).sum_eq]
      simp only [List.map_cons, List.map_nil, List.sum_cons, List.sum_nil]
      omega

end

/-! ## Counted runs -/

namespace Run

/-- The most visits that pending nodes can take. -/
noncomputable def ahead {α : Type} {n : Nat} (lo hi : Fin n → ℤ) (pending : List (Node α)) : Nat :=
  (pending.map fun node => 2 * node.room lo hi - 1).sum

/-- A visit takes at least as much from what was ahead as it adds to the visits, if the children of
its node divide what that had left. -/
theorem visits_add_ahead_absorb_le {α : Type} [Scalar α] {n : Nat} {lo hi : Fin n → ℤ}
    {r : Run α} {node : Node α} {rest : List (Node α)} {v : Visit α}
    (hperm : r.pending.Perm (node :: rest))
    (hsum : (v.outcome.children.map fun kid => 2 * kid.room lo hi - 1).sum + 2 ≤
      2 * node.room lo hi) :
    (r.absorb rest v).visits + ahead lo hi (r.absorb rest v).pending ≤
      r.visits + ahead lo hi r.pending := by
  have hsplit : ahead lo hi r.pending = (2 * node.room lo hi - 1) + ahead lo hi rest :=
    (hperm.map _).sum_eq
  have habsorb : ahead lo hi (v.outcome.children ++ rest) =
      (v.outcome.children.map fun kid => 2 * kid.room lo hi - 1).sum + ahead lo hi rest := by
    unfold ahead
    rw [List.map_append, List.sum_append]
  rw [visits_absorb, pending_absorb, habsorb, hsplit]
  -- the visit itself takes what its node had ahead of it beyond that of the children
  omega

variable {search : Search Exact} {lo hi : Fin search.problem.integers.size → ℤ}

/-- Every pending node has something left, the visits and those ahead are bounded by what the root
had left, and no more iterations were spent than nodes visited. -/
structure Counted (search : Search Exact) (lo hi : Fin search.problem.integers.size → ℤ)
    (r : Run Exact) : Prop where
  room : ∀ node ∈ r.pending, 0 < node.room lo hi
  visits : r.visits + ahead lo hi r.pending + 1 ≤ 2 * search.root.room lo hi
  iterations : r.state.budget.iterations ≤ r.visits

namespace Counted

variable {r s : Run Exact}

theorem of_advances (ht : Exact.ofRat 0 ≤ search.settings.integrality)
    (hconfined : search.relaxation.Confined search.problem lo hi) (hcoherent : r.Coherent search)
    (hr : r.Counted search lo hi) (h : Advances search r s) : s.Counted search lo hi := by
  obtain ⟨before, after, node, elapsed, v, hperm, hvisit, rfl⟩ := h.exists_visit
  have hnode : node ∈ r.pending := hperm.mem_iff.mpr List.mem_cons_self
  have hover := hcoherent.isOver node hnode
  obtain ⟨hkids, hsum⟩ := room_of_visit ht
    (fun takes => hconfined.between hover takes.answered takes.feasible
      (Visit.finite_of_isUsable takes.usable)) hover hvisit (hr.room node hnode)
  refine ⟨?_, ?_, ?_⟩
  · intro kid hkid
    rw [pending_absorb, List.mem_append] at hkid
    rcases hkid with hkid | hrest
    · exact hkids kid hkid
    · exact hr.room kid (hperm.mem_iff.mpr (List.mem_cons_of_mem node hrest))
  · have hvisits := hr.visits
    have habsorb := visits_add_ahead_absorb_le hperm hsum
    omega
  · rw [state_absorb, visits_absorb]
    exact (iterations_of_visit hvisit).2.trans (Nat.succ_le_succ hr.iterations)

/-- With a pending node there are fewer iterations than twice the assignments of the root, less
one. -/
theorem iterations_lt (h : r.Counted search lo hi) {node : Node Exact} (hnode : node ∈ r.pending) :
    r.state.budget.iterations + 1 < 2 * search.root.room lo hi := by
  have hle : 2 * node.room lo hi - 1 ≤ ahead lo hi r.pending :=
    List.le_sum_of_mem (List.mem_map.mpr ⟨node, hnode, rfl⟩)
  have hroom := h.room node hnode
  have hvisits := h.visits
  have hiterations := h.iterations
  omega

end Counted

theorem counted_start (hle : ∀ i, lo i ≤ hi i) {warmStart : Option (Array Exact)} {r : Run Exact}
    (h : search.start warmStart = .ok r) : r.Counted search lo hi := by
  obtain ⟨hpending, hopens, -, -, hvisits, -⟩ := Search.start_eq_ok h
  have hroom : 0 < search.root.room lo hi := by
    rw [Node.room_pos_iff]
    exact ⟨lo, mem_box_root lo, le_refl lo, hle⟩
  refine ⟨?_, ?_, ?_⟩
  · intro node hnode
    rw [hpending, List.mem_singleton] at hnode
    rw [hnode]
    exact hroom
  · rw [hpending, hvisits, ahead, List.map_singleton, List.sum_singleton]
    omega
  · rw [hopens.budget, hvisits]
    exact le_refl 0

end Run

end BranchBound
