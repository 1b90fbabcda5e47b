import BranchBound.Proofs.Following

/-!
# Coverage

What a search owes to the points of a set `S` when its relaxation is sound for `S`, along every
schedule and in exact arithmetic.

* `Relaxation.Sound`: the answers bound the objective over the points of `S` in the node's box, and
  say that there is none only if there is none within the cutoff.
* `Relaxation.Sound.tracks`: no call loses a point of `S`, and only an incumbent that closes the
  point settles it.
* `Run.Covers`: a point is closed by the incumbent, or it lies in the box of a pending node whose
  estimate it does not beat.
* `Run.Invariant.of_advances`: a visit that leaves nothing out keeps every point of `S` covered.

At the end no node is pending, so the incumbent closes all of `S`
(`Run.Invariant.closes_of_pending_eq_nil`).
-/

namespace BranchBound

/-! ## Sound relaxations -/

/-- A relaxation is sound for points `S` of a problem if an answer with a point bounds the objective
over the points of `S` in the node's box, and an answer without one means that the cutoff excludes
all of these. The cutoffs are on the side that is bad for the sense of the problem. -/
structure Relaxation.Sound (relaxation : Relaxation Exact) (problem : Problem Exact)
    (S : Set (Array Exact)) : Prop where
  point : ∀ {call : Nat} {node : Node Exact} {cutoff : Option (Cutoff Exact)}
    {answer : Answer Exact}, node.IsOver problem →
    (∀ limit, cutoff = some limit → limit.Suits problem.sense) →
    relaxation call node cutoff = .ok answer → answer.verdict.isFeasible = true →
    answer.point.size = problem.size ∧ (∀ v ∈ answer.point, Scalar.isFinite v = true) ∧
      node.Contains answer.point ∧ ∀ p ∈ S, node.Contains p →
        problem.sense.noWorse (problem.objective answer.point) (problem.objective p)
  none : ∀ {call : Nat} {node : Node Exact} {cutoff : Option (Cutoff Exact)}
    {answer : Answer Exact}, node.IsOver problem →
    (∀ limit, cutoff = some limit → limit.Suits problem.sense) →
    relaxation call node cutoff = .ok answer → answer.verdict.isFeasible = false →
    ∀ p ∈ S, node.Contains p →
      ∃ limit, cutoff = some limit ∧ limit.excludes (problem.objective p) = true

/-- Whether the points that a search takes from its relaxation and finds to be whole belong to a
set. -/
def Search.LeavesIn (search : Search Exact) (S : Set (Array Exact)) : Prop :=
  ∀ ⦃call : Nat⦄ ⦃node : Node Exact⦄ ⦃cutoff : Option (Cutoff Exact)⦄ ⦃answer : Answer Exact⦄,
    node.IsOver search.problem → search.relaxation call node cutoff = .ok answer →
    answer.verdict.isFeasible = true → Visit.isUsable search answer.point = true →
    search.criteria.branching? answer.point node = .ok none → answer.point ∈ S

section

variable {search : Search Exact} {S : Set (Array Exact)} {p : Array Exact}

/-- What the threshold prunes is closed. -/
theorem closes_of_not_mayImprove {estimate best value : Exact}
    (h : search.criteria.mayImprove estimate (some best) = false)
    (hvalue : search.problem.sense.better value estimate = false) :
    search.criteria.Closes best value := by
  have hthr : search.problem.sense.noWorse (search.criteria.threshold best) estimate :=
    Criteria.mayImprove_eq_false_iff.mp h
  by_cases hnan : value = .nan
  · refine Or.inl ?_
    rw [hnan]
    exact Sense.not_nan_better best
  · have hvalid := (Sense.valid_of_noWorse hthr).2
    exact Or.inr (Sense.noWorse_trans hthr (Sense.noWorse_of_not_better hvalid hnan hvalue))

/-- What a value bounds is closed by an incumbent that the value does not beat. -/
theorem closes_of_not_better {offered best value : Exact} (hvalid : offered ≠ .nan)
    (hvalue : search.problem.sense.better value offered = false)
    (hbest : search.problem.sense.better offered best = false) :
    search.criteria.Closes best value := by
  refine Or.inl ?_
  -- a value that beats the incumbent would let the offered one beat it as well
  cases hbetter : search.criteria.sense.better value best with
  | false => rfl
  | true =>
    have hnan := (Sense.valid_of_noWorse (Sense.noWorse_of_better hbetter)).1
    have hoffered : search.problem.sense.better offered best = true :=
      Sense.better_of_noWorse_of_better (Sense.noWorse_of_not_better hvalid hnan hvalue) hbetter
    rw [hoffered] at hbest
    cases hbest

/-- What a cutoff excludes is closed. -/
theorem closes_of_excludes {bestValue : Option Exact} {limit : Cutoff Exact} {value : Exact}
    (hlimit : search.criteria.cutoff? bestValue = some limit) (h : limit.excludes value = true) :
    ∃ best, bestValue = some best ∧ search.criteria.Closes best value := by
  cases bestValue with
  | none => cases hlimit
  | some best =>
    rw [Criteria.excludes_cutoff hlimit] at h
    exact ⟨best, rfl, Or.inr (Sense.noWorse_of_better h)⟩

/-- Incumbents settle what they close, and a node may promise what does not beat its value. -/
theorem Search.settling_closes (hcheck : search.settings.check = .ok ())
    (hgap : search.settings.relativeGap ≤ .ofRat 1) (value : Exact) :
    search.Settling (search.problem.sense.better value · = false)
      (search.criteria.Closes · value) where
  root := Sense.not_better_best _
  replaced := by
    obtain ⟨⟨g, hg, hg0⟩, ⟨a, ha, -⟩, -, -⟩ := Settings.of_check hcheck
    rw [hg, Exact.ofRat_le] at hgap
    exact fun hbetter hcloses => Criteria.closes_of_better hg ha hg0 hgap hbetter hcloses
  pruned hbounds hpruned := closes_of_not_mayImprove hpruned hbounds
  offered hbounds hvalid hbest := closes_of_not_better hvalid hbounds hbest

/-- A search with a sound relaxation loses no point of the set, and only incumbents settle it that
close it. -/
theorem Relaxation.Sound.tracks (h : search.relaxation.Sound search.problem S)
    (hcheck : search.settings.check = .ok ()) (hgap : search.settings.relativeGap ≤ .ofRat 1)
    (hp : p ∈ S) :
    search.Tracks p (search.problem.sense.better (search.problem.objective p) · = false)
      (search.criteria.Closes · (search.problem.objective p)) (fun _ => False) where
  toSettling := Search.settling_closes hcheck hgap _
  none hover hin hanswer hnone := by
    obtain ⟨limit, hlimit, hexcludes⟩ :=
      h.none hover (fun _ => Criteria.suits_cutoff) hanswer hnone p hp hin
    exact Or.inr (closes_of_excludes hlimit hexcludes)
  point hover hsuits hin hanswer hfeasible _ := by
    obtain ⟨-, -, hcontains, hbound⟩ := h.point hover hsuits hanswer hfeasible
    have hle := hbound p hp hin
    exact Or.inr ⟨hcontains.allows, (Sense.valid_of_noWorse hle).1, Sense.not_better_of_noWorse hle⟩
  elsewhere hover hsuits _ hanswer hfeasible _ :=
    Or.inl (h.point hover hsuits hanswer hfeasible).2.2.1.allows

end

/-! ## Covered points -/

namespace Run

/-- A point is closed by the incumbent, or lies in a pending node and does not beat its
estimate. -/
def Covers (search : Search Exact) (r : Run Exact) (p : Array Exact) : Prop :=
  (∃ best, r.state.board.best = some best ∧
    search.criteria.Closes best.objective (search.problem.objective p)) ∨
  ∃ node ∈ r.pending, node.Contains p ∧
    search.problem.sense.better (search.problem.objective p) node.estimate = false

/-- What a run keeps: it is coherent, its boxes are apart, and it covers the points of `S` as long
as it leaves nothing out. -/
structure Invariant (search : Search Exact) (S : Set (Array Exact)) (r : Run Exact) : Prop where
  coherent : r.Coherent search
  separated : r.Separated search.problem.integers.size
  covers : r.complete = true → ∀ p ∈ S, r.Covers search p

end Run

namespace Run

variable {search : Search Exact} {S : Set (Array Exact)} {r s : Run Exact}

theorem Invariant.of_advances (hcheck : search.settings.check = .ok ())
    (hgap : search.settings.relativeGap ≤ .ofRat 1)
    (hsound : search.relaxation.Sound search.problem S) (hwhole : ∀ p ∈ S, search.problem.Whole p)
    (hr : r.Invariant search S) (h : Advances search r s) : s.Invariant search S := by
  have htol := Settings.integrality_nonneg hcheck
  have hparts : ∀ {elapsed : Nat} {node : Node Exact} {v : Visit Exact} {a b : Node Exact},
      node ∈ r.pending → visit search elapsed r.state node = .ok v →
      v.outcome = .branched a b → Node.Parts search.problem.integers.size node a b := by
    intro elapsed node v a b hnode hvisit ho
    have hover := hr.coherent.isOver node hnode
    exact parts_of_visit htol
      (fun takes => (hsound.point hover (fun _ => Criteria.suits_cutoff) takes.answered
        takes.feasible).2.2.1.allows) hover
      (hr.separated.nonempty node hnode) hvisit ho
  refine ⟨hr.coherent.of_advances h, hr.separated.of_advances hparts h, fun hcomplete p hp => ?_⟩
  have htracks := hsound.tracks hcheck hgap hp
  obtain ⟨before, after, node, elapsed, v, hperm, hvisit, rfl⟩ := h.exists_visit
  have hnode : node ∈ r.pending := hperm.mem_iff.mpr List.mem_cons_self
  rw [complete_absorb, Bool.and_eq_true] at hcomplete
  unfold Covers
  rw [state_absorb, pending_absorb]
  rcases hr.covers hcomplete.1 p hp with hclosed | ⟨other, hother, hin, hest⟩
  · exact Or.inl (htracks.toSettling.of_visit hr.coherent.sense hvisit hclosed)
  · rw [hperm.mem_iff, List.mem_cons] at hother
    rcases hother with rfl | hrest
    · rcases htracks.of_visit htol (hwhole p hp) (hr.coherent.isOver other hnode)
        hr.coherent.sense (hr.separated.isNew hnode) hin hest hvisit hcomplete.2 with
        ⟨_, -, hlost⟩ | hclosed | ⟨hbounds, kid, hkid, hin', -⟩
      · exact absurd hlost id
      · exact Or.inl hclosed
      · exact Or.inr ⟨kid, List.mem_append_left _ hkid, hin', hbounds kid hkid⟩
    · exact Or.inr ⟨other, List.mem_append_right _ hrest, hin, hest⟩

/-- The root covers everything. -/
theorem invariant_start {warmStart : Option (Array Exact)}
    (hwhole : ∀ p ∈ S, search.problem.Whole p) (h : search.start warmStart = .ok r) :
    r.Invariant search S := by
  obtain ⟨hpending, hopens, -⟩ := Search.start_eq_ok h
  refine ⟨coherent_start h, ⟨?_, ?_, ?_⟩, fun _ p hp => Or.inr ⟨search.root, ?_, ?_, ?_⟩⟩
  · intro node hnode
    rw [hpending, List.mem_singleton] at hnode
    rw [hnode]
    exact ⟨fun _ => 0, mem_box_root _⟩
  · rw [hpending]
    exact List.pairwise_singleton _ _
  · intro cuts hcuts
    rw [hopens.visited] at hcuts
    exact absurd hcuts Std.HashSet.not_mem_empty
  · rw [hpending]
    exact List.mem_singleton_self search.root
  · obtain ⟨z, hz⟩ := exists_assigns (hwhole p hp)
    exact (contains_iff_mem_box Node.isOver_root hz).mpr (mem_box_root z)
  · exact Sense.not_better_best _

/-- Every schedule keeps the invariant. -/
theorem invariant_of_start {warmStart : Option (Array Exact)}
    (hcheck : search.settings.check = .ok ()) (hgap : search.settings.relativeGap ≤ .ofRat 1)
    (hsound : search.relaxation.Sound search.problem S) (hwhole : ∀ p ∈ S, search.problem.Whole p)
    (hstart : search.start warmStart = .ok r) (h : Reaches search r s) : s.Invariant search S :=
  invariant_of_reaches (fun hstep hr => hr.of_advances hcheck hgap hsound hwhole hstep) h
    (invariant_start hwhole hstart)

/-- A schedule that is through and left nothing out has closed all of `S`. -/
theorem Invariant.closes_of_pending_eq_nil (hs : s.Invariant search S)
    (hcomplete : s.complete = true) (hpending : s.pending = []) {p : Array Exact} (hp : p ∈ S) :
    ∃ best, s.state.board.best = some best ∧
      search.criteria.Closes best.objective (search.problem.objective p) := by
  rcases hs.covers hcomplete p hp with hcloses | ⟨node, hnode, -⟩
  · exact hcloses
  · rw [hpending] at hnode
    cases hnode

end Run

end BranchBound
