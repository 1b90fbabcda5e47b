import BranchBound.Proofs.Completion
import BranchBound.Proofs.Partition
import BranchBound.Proofs.Termination

/-!
# Trees in a finite box

If the whole variables have whole bounds, and the relaxation keeps to the boxes of the nodes, the
tree of a search is finite, whatever the budget (`tree_fits_in_box`). Every node leaves at least one
whole assignment and branching divides what is left, so fewer nodes branch than there are
assignments. Every branch makes the range of one variable smaller, so a node is no deeper than the
ranges are wide (`Node.Shallow`).

Both measures are read off the box that a node leaves within the bounds, which has a range of its
own for every variable (`Node.Ranges`).
-/

namespace BranchBound

open Lawful

/-! ## Ranges -/

section

variable {α : Type} {n : Nat} {lo hi : Fin n → ℤ} {node a b : Node α} {i : Fin n} {d : ℤ}

/-- What a node leaves within bounds are the assignments in given ranges, none of them empty. -/
structure Node.Ranges (lo hi : Fin n → ℤ) (node : Node α) (first last : Fin n → ℤ) : Prop where
  le : first ≤ last
  inter_eq : box n node.cuts ∩ Set.Icc lo hi = Set.Icc first last

theorem Node.ranges_root (hle : lo ≤ hi) {vars : Array Nat} {estimate : α} :
    (Node.root vars estimate).Ranges lo hi lo hi :=
  ⟨hle, Set.inter_eq_right.mpr fun z _ => mem_box_root z⟩

/-- The halves of a node have its ranges, but for one that is cut in two. -/
theorem Node.Ranges.halves {first last : Fin n → ℤ} (h : node.Ranges lo hi first last)
    (hhalves : Node.Halves n node a b i d) (hd : lo i ≤ d) (hd1 : d + 1 ≤ hi i) :
    first i ≤ d ∧ d + 1 ≤ last i ∧ a.Ranges lo hi first (Function.update last i d) ∧
      b.Ranges lo hi (Function.update first i (d + 1)) last := by
  have hmem : ∀ z, z ∈ box n node.cuts ∧ z ∈ Set.Icc lo hi ↔ z ∈ Set.Icc first last := fun z => by
    rw [← h.inter_eq, Set.mem_inter_iff]
  -- the lowest corner, moved along the edge that is cut, stays in the box
  obtain ⟨hfirst, hbounds⟩ := (hmem first).mpr ⟨le_refl _, h.le⟩
  have hedge : ∀ k, lo i ≤ k → k ≤ hi i → Function.update first i k ∈ Set.Icc lo hi := by
    intro k hlow hhigh
    constructor
    · exact le_update_iff.mpr ⟨hlow, fun j _ => hbounds.1 j⟩
    · exact update_le_iff.mpr ⟨hhigh, fun j _ => hbounds.2 j⟩
  obtain ⟨hbelow, habove⟩ := hhalves.update_mem first hfirst
  have hdown : first i ≤ d := by
    have hle := ((hmem _).mp ⟨hbelow, hedge d hd (by omega)⟩).1 i
    rwa [Function.update_self] at hle
  have hup : d + 1 ≤ last i := by
    have hle := ((hmem _).mp ⟨habove, hedge (d + 1) (by omega) hd1⟩).2 i
    rwa [Function.update_self] at hle
  refine ⟨hdown, hup, ⟨?_, ?_⟩, ⟨?_, ?_⟩⟩
  · exact le_update_iff.mpr ⟨hdown, fun j _ => h.le j⟩
  · ext z
    rw [Set.mem_inter_iff, hhalves.below, and_right_comm, hmem, Set.mem_Icc, Set.mem_Icc,
      le_update_iff]
    constructor
    · rintro ⟨⟨hlow, hhigh⟩, hcut⟩
      exact ⟨hlow, hcut, fun j _ => hhigh j⟩
    · rintro ⟨hlow, hcut, hrest⟩
      refine ⟨⟨hlow, fun j => ?_⟩, hcut⟩
      by_cases hj : j = i
      · have hle : z i ≤ last i := by omega
        rw [hj]
        exact hle
      · exact hrest j hj
  · exact update_le_iff.mpr ⟨hup, fun j _ => h.le j⟩
  · ext z
    rw [Set.mem_inter_iff, hhalves.above, and_right_comm, hmem, Set.mem_Icc, Set.mem_Icc,
      update_le_iff]
    constructor
    · rintro ⟨⟨hlow, hhigh⟩, hcut⟩
      exact ⟨⟨hcut, fun j _ => hlow j⟩, hhigh⟩
    · rintro ⟨⟨hcut, hrest⟩, hhigh⟩
      refine ⟨⟨fun j => ?_, hhigh⟩, hcut⟩
      by_cases hj : j = i
      · have hle : first i ≤ z i := by omega
        rw [hj]
        exact hle
      · exact hrest j hj

/-- A node leaves something within bounds, and its depth is what its ranges have lost at most. -/
def Node.Shallow (lo hi : Fin n → ℤ) (node : Node α) : Prop :=
  ∃ first last, node.Ranges lo hi first last ∧
    node.depth + ∑ i, (last i - first i) ≤ ∑ i, (hi i - lo i)

theorem Node.shallow_root (hle : lo ≤ hi) {vars : Array Nat} {estimate : α} :
    (Node.root vars estimate).Shallow lo hi :=
  ⟨lo, hi, Node.ranges_root hle, by simp [Node.root]⟩

/-- A shallow node is no deeper than the bounds are apart. -/
theorem Node.Shallow.depth_le (h : node.Shallow lo hi) :
    (node.depth : ℤ) ≤ ∑ i, (hi i - lo i) := by
  obtain ⟨first, last, hranges, hdepth⟩ := h
  have hwidth : 0 ≤ ∑ i, (last i - first i) :=
    Finset.sum_nonneg fun i _ => sub_nonneg.mpr (hranges.le i)
  omega

theorem Node.Shallow.room_pos (h : node.Shallow lo hi) : 0 < node.room lo hi := by
  obtain ⟨first, last, hranges, -⟩ := h
  rw [Node.room_pos_iff, hranges.inter_eq]
  exact Set.nonempty_Icc.mpr hranges.le

theorem sum_lt_of_lt_at {f g : Fin n → ℤ} (hat : f i < g i) (hother : ∀ j, j ≠ i → f j = g j) :
    ∑ j, f j < ∑ j, g j := by
  refine Finset.sum_lt_sum (fun j _ => ?_) ⟨i, Finset.mem_univ i, hat⟩
  by_cases hj : j = i
  · rw [hj]
    exact hat.le
  · exact (hother j hj).le

/-- The halves of a shallow node, one deeper than it, are shallow. -/
theorem Node.Shallow.halves (h : node.Shallow lo hi) (hhalves : Node.Halves n node a b i d)
    (hd : lo i ≤ d) (hd1 : d + 1 ≤ hi i) (ha : a.depth = node.depth + 1)
    (hb : b.depth = node.depth + 1) : a.Shallow lo hi ∧ b.Shallow lo hi := by
  obtain ⟨first, last, hranges, hdepth⟩ := h
  obtain ⟨hdown, hup, hbelow, habove⟩ := hranges.halves hhalves hd hd1
  constructor
  · refine ⟨_, _, hbelow, ?_⟩
    have hless : ∑ j, (Function.update last i d j - first j) < ∑ j, (last j - first j) := by
      refine sum_lt_of_lt_at (i := i) ?_ fun j hj => ?_
      · rw [Function.update_self]
        omega
      · rw [Function.update_of_ne hj]
    omega
  · refine ⟨_, _, habove, ?_⟩
    have hless : ∑ j, (last j - Function.update first i (d + 1) j) < ∑ j, (last j - first j) := by
      refine sum_lt_of_lt_at (i := i) ?_ fun j hj => ?_
      · rw [Function.update_self]
        omega
      · rw [Function.update_of_ne hj]
    omega

end

/-! ## Relaxations that keep to the boxes -/

section

variable {α : Type} [Scalar α]

/-- Whether the points of a relaxation have their whole variables in the boxes of their nodes, laid
over given bounds. -/
def Relaxation.Keeps (relaxation : Relaxation α) (problem : Problem α) (lower upper : Array α) :
    Prop :=
  ∀ ⦃call : Nat⦄ ⦃node : Node α⦄ ⦃cutoff : Option (Cutoff α)⦄ ⦃answer : Answer α⦄,
    node.IsOver problem → relaxation call node cutoff = .ok answer →
    answer.verdict.isFeasible = true → node.Keeps lower upper answer.point

variable [Lawful α]

/-- Bounds of all variables that are whole at the whole ones, and leave them something. -/
structure Problem.WholeBounds (problem : Problem α) (lower upper : Array α)
    (lo hi : Fin problem.integers.size → ℤ) : Prop where
  size_lower : lower.size = problem.size
  size_upper : upper.size = problem.size
  lower : ∀ i, ∃ a, lower[problem.varAt i]? = some a ∧ value a = .ofRat (lo i)
  upper : ∀ i, ∃ a, upper[problem.varAt i]? = some a ∧ value a = .ofRat (hi i)
  le : ∀ i, lo i ≤ hi i

/-- The whole variables of a problem are some of its variables, each named once. -/
structure Problem.Indexed {α : Type} (problem : Problem α) : Prop where
  known : ∀ var ∈ problem.integers, var < problem.size
  nodup : problem.integers.toList.Nodup

omit [Scalar α] [Lawful α] in
theorem Problem.Indexed.proper {problem : Problem α} (h : problem.Indexed) {node : Node α}
    (hover : node.IsOver problem) : node.Proper problem.size where
  known := hover.1 ▸ h.known
  nodup := hover.1 ▸ h.nodup
  size_cuts := hover.2.trans (congrArg Array.size hover.1).symm

/-- A point that keeps to a node's box is allowed by its cuts and within the bounds. -/
theorem Node.Keeps.between {problem : Problem α} {lower upper x : Array α} {node : Node α}
    {lo hi : Fin problem.integers.size → ℤ} (h : node.Keeps lower upper x)
    (hindexed : problem.Indexed) (hbounds : problem.WholeBounds lower upper lo hi)
    (hover : node.IsOver problem) : node.Allows x ∧ problem.Between lo hi x := by
  obtain ⟨f, rfl⟩ := exists_eq_tabulate hbounds.size_lower 0.0
  obtain ⟨g, rfl⟩ := exists_eq_tabulate hbounds.size_upper 0.0
  have hproper := hindexed.proper hover
  have hentry : ∀ i, value (f (problem.varAt i)) = .ofRat (lo i) ∧
      value (g (problem.varAt i)) = .ofRat (hi i) := by
    intro i
    have hlt : problem.varAt i < problem.size := hindexed.known _ (Array.getElem_mem i.isLt)
    obtain ⟨a, ha, hlo⟩ := hbounds.lower i
    obtain ⟨b, hb, hhi⟩ := hbounds.upper i
    rw [getElem?_tabulate_of_lt _ hlt] at ha hb
    rw [Option.some.inj ha, Option.some.inj hb]
    exact ⟨hlo, hhi⟩
  have hwithin : ∀ (i : Fin problem.integers.size) (c : Cut) (v : α), node.cuts[i.val]? = some c →
      x[problem.varAt i]? = some v →
      (.ofRat (lo i) ≤ value v ∧ value v ≤ .ofRat (hi i)) ∧ c.Allows v := by
    intro i c v hc hv
    have hvar : node.vars[i.val]? = some (problem.varAt i) := by
      rw [hover.1]
      exact Array.getElem?_eq_getElem i.isLt
    obtain ⟨hlo, hhi⟩ := hentry i
    rw [← hlo, ← hhi]
    refine h.within hproper hvar hc hv ?_ ?_
    · rw [isNaN_eq, hlo]
      rfl
    · rw [isNaN_eq, hhi]
      rfl
  constructor
  · intro i var c v hvar hc hv
    rw [hover.1] at hvar
    obtain ⟨hi, rfl⟩ := Array.getElem?_eq_some_iff.mp hvar
    exact (hwithin ⟨i, hi⟩ c v hc hv).2
  · intro i v hv
    have hi : i.val < node.cuts.size := by
      rw [hover.2]
      exact i.isLt
    exact (hwithin i _ v (Array.getElem?_eq_getElem hi) hv).1

end

/-! ## Runs -/

namespace Run

variable {α : Type} [Scalar α] [Lawful α] {search : Search α}
  {lo hi : Fin search.problem.integers.size → ℤ} {r s : Run α}

omit [Lawful α] in
/-- The nodes of a run are no deeper than the bounds are apart, those that are pending leave
something, and the visits so far and those ahead are bounded by the assignments. -/
structure Fits (search : Search α) (lo hi : Fin search.problem.integers.size → ℤ) (r : Run α) :
    Prop where
  shallow : ∀ node ∈ r.pending, node.Shallow lo hi
  depth_le : ∀ node ∈ nodesOf r.journal, (node.depth : ℤ) ≤ ∑ i, (hi i - lo i)
  visits : r.visits + ahead lo hi r.pending + 1 ≤ 2 * search.root.room lo hi

theorem Fits.of_advances {lower upper : Array α} (hcheck : search.settings.check = .ok ())
    (hindexed : search.problem.Indexed) (hbounds : search.problem.WholeBounds lower upper lo hi)
    (hkeeps : search.relaxation.Keeps search.problem lower upper) (hcoherent : r.Coherent search)
    (hr : r.Fits search lo hi) (h : Advances search r s) : s.Fits search lo hi := by
  obtain ⟨before, after, node, elapsed, v, hperm, hvisit, rfl⟩ := h.exists_visit
  have hnode : node ∈ r.pending := hperm.mem_iff.mpr List.mem_cons_self
  have hover := hcoherent.isOver node hnode
  have ht := Settings.integrality_nonneg hcheck
  have hin : ∀ {answer : Answer α} {events : List (Event α)},
      Visit.Takes search elapsed r.state node answer events →
      node.Allows answer.point ∧ search.problem.Between lo hi answer.point := fun takes =>
    (hkeeps hover takes.answered takes.feasible).between hindexed hbounds hover
  have hshallow := hr.shallow node hnode
  refine ⟨?_, ?_, ?_⟩
  · intro kid hkid
    rw [pending_absorb, List.mem_append] at hkid
    rcases hkid with hkid | hrest
    · obtain ⟨i, d, a, b, hboth, ha, hb, hhalves, hd, hd1⟩ :=
        halves_of_visit ht hin hover hvisit hkid
      obtain ⟨hbelow, habove⟩ := hshallow.halves hhalves hd hd1 ha hb
      rcases List.mem_pair.mp (hboth.mem_iff.mp hkid) with rfl | rfl
      · exact hbelow
      · exact habove
    · exact hr.shallow kid (hperm.mem_iff.mpr (List.mem_cons_of_mem node hrest))
  · intro other hother
    unfold nodesOf at hother
    rw [journal_absorb, Array.toList_appendList, List.filterMap_append, (ended_of_visit hvisit).1,
      List.mem_append, List.mem_singleton] at hother
    rcases hother with hold | rfl
    · exact hr.depth_le other hold
    · exact hshallow.depth_le
  · obtain ⟨-, hsum⟩ := room_of_visit ht hin hover hvisit hshallow.room_pos
    have hvisits := hr.visits
    have habsorb := visits_add_ahead_absorb_le hperm hsum
    omega

omit [Lawful α] in
theorem fits_start (hle : ∀ i, lo i ≤ hi i) {warmStart : Option (Array α)}
    (h : search.start warmStart = .ok r) : r.Fits search lo hi := by
  obtain ⟨hpending, -, -, -, hvisits, -⟩ := Search.start_eq_ok h
  obtain ⟨hquiet, -, -⟩ := Search.quiet_start h
  have hroot : search.root.Shallow lo hi := Node.shallow_root hle
  have hroom := hroot.room_pos
  refine ⟨?_, ?_, ?_⟩
  · intro node hnode
    rw [hpending, List.mem_singleton] at hnode
    rw [hnode]
    exact hroot
  · intro node hnode
    rw [nodesOf, (ended_quiet hquiet).1] at hnode
    exact absurd hnode List.not_mem_nil
  · rw [hpending, hvisits, ahead, List.map_singleton, List.sum_singleton]
    omega

/-- Along every schedule a run fits in the box. -/
theorem fits_of_reaches {lower upper : Array α} (hcheck : search.settings.check = .ok ())
    (hindexed : search.problem.Indexed) (hbounds : search.problem.WholeBounds lower upper lo hi)
    (hkeeps : search.relaxation.Keeps search.problem lower upper)
    {warmStart : Option (Array α)} {start : Run α} (hstart : search.start warmStart = .ok start)
    (h : Reaches search start r) : r.Fits search lo hi := by
  have hboth : r.Coherent search ∧ r.Fits search lo hi :=
    invariant_of_reaches (P := fun r => r.Coherent search ∧ r.Fits search lo hi)
      (fun hstep hr => ⟨hr.1.of_advances hstep,
        hr.2.of_advances hcheck hindexed hbounds hkeeps hr.1 hstep⟩) h
      ⟨coherent_start hstart, fits_start hbounds.le hstart⟩
  exact hboth.2

end Run

/-! ## The tree -/

/-- The tree of a search fits in a finite box. Over whole bounds of the whole variables, if the
relaxation keeps to the boxes of the nodes, there is a report whatever the budget: fewer nodes branch
than there are whole assignments, and none is deeper than the bounds are apart. Along every schedule
the visits are bounded in the same way, whatever the limits of the settings are. -/
theorem tree_fits_in_box {α : Type} [Scalar α] [Lawful α] {search : Search α}
    {lower upper : Array α} {lo hi : Fin search.problem.integers.size → ℤ}
    (hcheck : search.settings.check = .ok ()) (hindexed : search.problem.Indexed)
    (hbounds : search.problem.WholeBounds lower upper lo hi)
    (hanswers : ∀ (call : Nat) (node : Node α) (cutoff : Option (Cutoff α)),
      node.IsOver search.problem → ∃ answer, search.relaxation call node cutoff = .ok answer)
    (hkeeps : search.relaxation.Keeps search.problem lower upper)
    (warmStart : Option (Array α)) (clock : Nat → Nat) :
    (∃ report, search.solve warmStart clock = .ok report ∧
      ((fatesOf report.journal).count .branched : ℤ) ≤ ∏ i, (hi i - lo i + 1) - 1 ∧
      ∀ node ∈ nodesOf report.journal, (node.depth : ℤ) ≤ ∑ i, (hi i - lo i)) ∧
    ∀ start r, search.start warmStart = .ok start → Run.Reaches search start r →
      (r.visits : ℤ) ≤ 2 * ∏ i, (hi i - lo i + 1) - 1 ∧
      ∀ node ∈ r.pending, (node.depth : ℤ) ≤ ∑ i, (hi i - lo i) := by
  have hroom : (search.root.room lo hi : ℤ) = ∏ i, (hi i - lo i + 1) := room_root hbounds.le
  constructor
  · obtain ⟨report, hreport⟩ := Search.solve_ok hindexed.known hcheck hanswers warmStart clock
    have hnodes := ((solve_accounts search warmStart clock).2 report hreport).length_nodes
    obtain ⟨-, start, last, hstart, hrun, rfl⟩ := Search.solve_eq_ok hreport
    have hreaches := (reaches_of_run hrun).1
    have hfits := Run.fits_of_reaches hcheck hindexed hbounds hkeeps hstart hreaches
    have hvisits := hfits.visits
    have hlength := ((Run.within_start hstart).of_reaches hreaches).length_nodes
    refine ⟨_, hreport, ?_, ?_⟩
    · rw [Run.nodes_finish, hlength] at hnodes
      rw [← hroom]
      omega
    · rw [Run.nodes_finish]
      exact hfits.depth_le
  · intro start r hstart hreaches
    have hfits := Run.fits_of_reaches hcheck hindexed hbounds hkeeps hstart hreaches
    have hvisits := hfits.visits
    refine ⟨?_, fun node hnode => (hfits.shallow node hnode).depth_le⟩
    rw [← hroom]
    omega

/-! ## A tree of three nodes -/

namespace Parabola

/-- The bounds from zero to three. -/
theorem wholeBounds : problem.WholeBounds #[0.0] #[3.0] (fun _ => 0) fun _ => 3 where
  size_lower := rfl
  size_upper := rfl
  lower i := by
    obtain ⟨i, hi⟩ := i
    obtain rfl : i = 0 := Nat.lt_one_iff.mp hi
    exact ⟨0.0, rfl, value_zero⟩
  upper i := by
    obtain ⟨i, hi⟩ := i
    obtain rfl : i = 0 := Nat.lt_one_iff.mp hi
    refine ⟨3.0, rfl, ?_⟩
    decide +kernel
  le _ := by decide

theorem keeps_of_tighten {c : Cut} {estimate l u x : Float} {depth : Nat}
    (h : (Node.mk #[0] #[c] estimate depth).tighten #[0.0] #[3.0] = .ok (#[l], #[u]))
    (hl : l ≤ x) (hu : x ≤ u) : (Node.mk #[0] #[c] estimate depth).Keeps #[0.0] #[3.0] #[x] := by
  intro l' u' h' var hvar v a b hv ha hb
  obtain ⟨rfl, rfl⟩ := Prod.mk.inj (Except.ok.inj (h.symm.trans h'))
  obtain rfl : var = 0 := by simpa using hvar
  rw [← Option.some.inj hv, ← Option.some.inj ha, ← Option.some.inj hb]
  exact ⟨hl, hu⟩

theorem keeps : Relaxation.Keeps (fun _ node _ => .ok (answers node)) problem #[0.0] #[3.0] := by
  rintro call ⟨vars, cuts, estimate, depth⟩ cutoff answer ⟨hvars, hsize⟩ hanswer hfeasible
  rw [← Except.ok.inj hanswer] at hfeasible ⊢
  obtain ⟨entry, hentry, hcut, hpoint⟩ := of_feasible hfeasible
  obtain rfl : vars = #[0] := hvars
  obtain rfl : cuts = #[entry.1] := by
    have hone : cuts.size = 1 := hsize
    obtain ⟨f, rfl⟩ := exists_eq_tabulate hone Cut.free
    rw [tabulate_one] at hcut ⊢
    have hentry : f 0 = entry.1 := Option.some.inj hcut
    rw [hentry]
  rw [hpoint]
  simp only [points, List.mem_cons, List.not_mem_nil, or_false] at hentry
  rcases hentry with rfl | rfl | rfl
  · exact keeps_of_tighten rfl (by decide +kernel) (by decide +kernel)
  · exact keeps_of_tighten rfl (by decide +kernel) (by decide +kernel)
  · exact keeps_of_tighten rfl (by decide +kernel) (by decide +kernel)

/-- With four whole points, the tree has one node that branches. -/
theorem tree_fits_in_box_parabola : ∃ report,
    let search := search fun _ node _ => .ok (answers node)
    search.solve none (fun _ => 0) = .ok report ∧
      ((fatesOf report.journal).count .branched : ℤ) ≤ 4 - 1 ∧
      (∀ node ∈ nodesOf report.journal, (node.depth : ℤ) ≤ 3) ∧
      (fatesOf report.journal).count .branched = 1 := by
  let search := search fun _ node _ => .ok (answers node)
  have hindexed : problem.Indexed := ⟨by decide, by decide⟩
  have hcheck : search.settings.check = .ok () := by decide +kernel
  obtain ⟨⟨report, hreport, hbranched, hdepth⟩, -⟩ := tree_fits_in_box hcheck hindexed wholeBounds
    (fun _ _ _ _ => ⟨_, rfl⟩) keeps none fun _ => 0
  have hrun : (search.solve none (fun _ => 0)).toOption.map
      (fun report => (fatesOf report.journal).count .branched) = some 1 := by decide +kernel
  obtain ⟨report', hreport', hcount⟩ := exists_of_toOption_map hrun
  obtain rfl := Except.ok.inj (hreport.symm.trans hreport')
  have hprod : ∏ _i : Fin search.problem.integers.size, ((3 : ℤ) - 0 + 1) = 4 := by decide
  have hsum : ∑ _i : Fin search.problem.integers.size, ((3 : ℤ) - 0) = 3 := by decide
  rw [hprod] at hbranched
  rw [hsum] at hdepth
  exact ⟨report, hreport, hbranched, hdepth, hcount⟩

end Parabola

end BranchBound
