import BranchBound.Proofs.Coherence

/-!
# Following a point

A whole point of a problem, followed through a search that leaves nothing out, in exact arithmetic
and along every schedule. As long as nothing is known of the point, it lies in the box of a pending
node. It can leave the tree in two ways: an incumbent settles it, or a call of the relaxation loses
it. What counts as either is left open (`Search.Tracks`): it depends on what the relaxation
promises.

A node that is closed as a duplicate takes no point along, although nothing is asked of the boxes
that the point is not in: inside every marked box that has the point there is a pending one that has
it too, and is strictly smaller (`Run.Carries.inside`). A duplicate is itself such a marked box.

* `Search.Tracks.of_visit`: what becomes of the point in the visit of a node that has it.
* `Run.Tracked.of_advances`: every visit keeps the point tracked.
* `Run.lost_or_settled`: at the end, it was lost by a call or the incumbent settles it.
-/

namespace BranchBound

/-- Incumbents and bounds of a point: `Settles` are the values of incumbents that make up for it,
and `Bounds` are the values that a node with it may promise. -/
structure Search.Settling (search : Search Exact) (Bounds Settles : Exact → Prop) : Prop where
  root : Bounds search.problem.sense.best
  /-- What settles the point still does when it is replaced. -/
  replaced : ∀ {old new : Exact}, search.problem.sense.better new old = true →
    Settles old → Settles new
  /-- A node with the point is pruned by incumbents only that settle it. -/
  pruned : ∀ {value best : Exact}, Bounds value →
    search.criteria.mayImprove value (some best) = false → Settles best
  /-- A whole point that is offered settles the point, or the incumbent does that it does not
  beat. -/
  offered : ∀ {value best : Exact}, Bounds value → value ≠ .nan →
    search.problem.sense.better value best = false → Settles best

/-- What a search does to a point `p`: `Lost` are the calls that may give it up. -/
structure Search.Tracks (search : Search Exact) (p : Array Exact) (Bounds Settles : Exact → Prop)
    (Lost : Call Exact → Prop) : Prop extends search.Settling Bounds Settles where
  /-- A node with the point is closed by calls only that lose it, or whose cutoff is that of an
  incumbent that settles it. -/
  none : ∀ {call : Nat} {node : Node Exact} {best : Option Exact} {answer : Answer Exact},
    node.IsOver search.problem → node.Contains p →
    search.relaxation call node (search.criteria.cutoff? best) = .ok answer →
    answer.verdict.isFeasible = false →
    Lost ⟨node, search.criteria.cutoff? best, answer⟩ ∨ ∃ value, best = some value ∧ Settles value
  /-- A node with the point is split within its box. -/
  point : ∀ {call : Nat} {node : Node Exact} {cutoff : Option (Cutoff Exact)}
    {answer : Answer Exact}, node.IsOver search.problem →
    (∀ limit, cutoff = some limit → limit.Suits search.problem.sense) → node.Contains p →
    search.relaxation call node cutoff = .ok answer → answer.verdict.isFeasible = true →
    Visit.isUsable search answer.point = true →
    Lost ⟨node, cutoff, answer⟩ ∨ node.Allows answer.point ∧
      search.problem.objective answer.point ≠ .nan ∧
      Bounds (search.problem.objective answer.point)
  /-- Another node is split within its box too, or its children may promise what they do. -/
  elsewhere : ∀ {call : Nat} {node : Node Exact} {cutoff : Option (Cutoff Exact)}
    {answer : Answer Exact}, node.IsOver search.problem →
    (∀ limit, cutoff = some limit → limit.Suits search.problem.sense) → ¬node.Contains p →
    search.relaxation call node cutoff = .ok answer → answer.verdict.isFeasible = true →
    Visit.isUsable search answer.point = true →
    node.Allows answer.point ∨ Bounds (search.problem.objective answer.point)

section

variable {search : Search Exact} {p : Array Exact} {Bounds Settles : Exact → Prop}
  {Lost : Call Exact → Prop} {elapsed : Nat} {σ : State Exact} {node : Node Exact} {v : Visit Exact}

/-! ## One visit -/

theorem Visit.Asks.mem_calls {answer : Answer Exact} {events more : List (Event Exact)}
    (asks : Visit.Asks search elapsed σ node answer events) :
    ⟨node, search.criteria.cutoff? σ.board.bestValue, answer⟩ ∈
      (events ++ more).filterMap Event.call? := by
  obtain ⟨report, -, rfl⟩ := asks.reported
  exact List.mem_cons_self

/-- A whole point of a node lies in one of the halves that divide it, and not in the rest of the
node's box. -/
theorem exists_contains_of_split {branching : Branching Exact} {estimate : Exact}
    {s : Split Exact} (hover : node.IsOver search.problem)
    (hsplit : node.split branching estimate = .ok s)
    (hparts : Node.Parts search.problem.integers.size node s.continued s.forked)
    (hwhole : search.problem.Whole p) (hin : node.Contains p) :
    ∃ kid, (kid = s.continued ∨ kid = s.forked) ∧ kid.Contains p ∧
      box search.problem.integers.size kid.cuts ⊂ box search.problem.integers.size node.cuts := by
  obtain ⟨z, hz⟩ := exists_assigns hwhole
  have hmem := (contains_iff_mem_box hover hz).mp hin
  rw [← hparts.union] at hmem
  rcases hmem with hl | hr
  · exact ⟨s.continued, Or.inl rfl,
      (contains_iff_mem_box (hover.of_split hsplit (Or.inl rfl)) hz).mpr hl, hparts.left_ssubset⟩
  · exact ⟨s.forked, Or.inr rfl,
      (contains_iff_mem_box (hover.of_split hsplit (Or.inr rfl)) hz).mpr hr,
      hparts.symm.left_ssubset⟩

namespace Search

theorem Settling.of_not_mayImprove (h : search.Settling Bounds Settles) {value : Exact}
    (hbounds : Bounds value)
    (hpruned : search.criteria.mayImprove value σ.board.bestValue = false) :
    ∃ best, σ.board.best = some best ∧ Settles best.objective := by
  unfold Scoreboard.bestValue at hpruned
  cases hbest : σ.board.best with
  | none =>
    rw [hbest] at hpruned
    cases hpruned
  | some best =>
    rw [hbest] at hpruned
    exact ⟨best, rfl, h.pruned hbounds hpruned⟩

theorem Settling.of_offer (h : search.Settling Bounds Settles) {board : Scoreboard Exact}
    (hsense : board.sense = search.problem.sense) {x : Array Exact} {value : Exact}
    (hbounds : Bounds value) (hvalid : value ≠ .nan) :
    ∃ best, (board.offer x value).2.best = some best ∧ Settles best.objective := by
  obtain ⟨best, hbest, hnot⟩ := board.exists_best_offer (x := x)
    (Exact.isNaN_eq_false_iff.mpr hvalid)
  rw [hsense] at hnot
  exact ⟨best, hbest, h.offered hbounds hvalid hnot⟩

/-- What settles a point before a visit settles it after. -/
theorem Settling.of_visit (h : search.Settling Bounds Settles)
    (hsense : σ.board.sense = search.problem.sense)
    (hvisit : visit search elapsed σ node = .ok v)
    (hsettled : ∃ best, σ.board.best = some best ∧ Settles best.objective) :
    ∃ best, v.state.board.best = some best ∧ Settles best.objective := by
  obtain ⟨best, hbest, hsettles⟩ := hsettled
  obtain ⟨best', hbest', hb⟩ := best_of_visit hsense hvisit hbest
  refine ⟨best', hbest', ?_⟩
  rcases hb with rfl | hbetter
  · exact hsettles
  · exact h.replaced hbetter hsettles

/-- The visit of a node that has the point, and whose box is new: the point is lost, it is settled,
or a child has it. -/
theorem Tracks.of_visit (h : search.Tracks p Bounds Settles Lost)
    (ht : Exact.ofRat 0 ≤ search.settings.integrality)
    (hwhole : search.problem.Whole p) (hover : node.IsOver search.problem)
    (hsense : σ.board.sense = search.problem.sense) (hnew : (σ.visited.mark node).1 = true)
    (hin : node.Contains p) (hbounds : Bounds node.estimate)
    (hvisit : visit search elapsed σ node = .ok v) (hexhaustive : v.outcome.isExhaustive = true) :
    (∃ call ∈ v.events.filterMap Event.call?, Lost call) ∨
    (∃ best, v.state.board.best = some best ∧ Settles best.objective) ∨
    (∀ kid ∈ v.outcome.children, Bounds kid.estimate) ∧ ∃ kid ∈ v.outcome.children,
      kid.Contains p ∧ box search.problem.integers.size kid.cuts ⊂
        box search.problem.integers.size node.cuts := by
  have hpoint : ∀ {answer : Answer Exact} {events : List (Event Exact)},
      Visit.Takes search elapsed σ node answer events →
      Lost ⟨node, search.criteria.cutoff? σ.board.bestValue, answer⟩ ∨
        node.Allows answer.point ∧ search.problem.objective answer.point ≠ .nan ∧
          Bounds (search.problem.objective answer.point) :=
    fun takes => h.point hover (fun _ => Criteria.suits_cutoff) hin takes.answered takes.feasible
      takes.usable
  cases Visit.course_of_visit hvisit with
  | outOfBudget | overCeiling | unusable => cases hexhaustive
  | seenBefore _ hseen =>
    rw [hnew] at hseen
    cases hseen
  | unpromising _ _ hpruned => exact Or.inr (Or.inl (h.of_not_mayImprove hbounds hpruned))
  | noPoint asks hnone =>
    rcases h.none hover hin asks.answered hnone with hlost | ⟨value, hvalue, hsettles⟩
    · exact Or.inl ⟨_, asks.mem_calls, hlost⟩
    · obtain ⟨best, hbest, rfl⟩ := Option.map_eq_some_iff.mp hvalue
      exact Or.inr (Or.inl ⟨best, hbest, hsettles⟩)
  | dominated takes _ hpruned =>
    rcases hpoint takes with hlost | ⟨-, -, hobjective⟩
    · exact Or.inl ⟨_, takes.mem_calls, hlost⟩
    · exact Or.inr (Or.inl (h.of_not_mayImprove hobjective hpruned))
  | whole takes _ =>
    rcases hpoint takes with hlost | ⟨-, hvalid, hobjective⟩
    · refine Or.inl ⟨_, ?_, hlost⟩
      rw [Visit.close, List.append_assoc]
      exact takes.mem_calls
    · have hcounted : σ.board.countSolved.sense = search.problem.sense := hsense
      exact Or.inr (Or.inl (h.of_offer hcounted hobjective hvalid))
  | @split answer _ branching s takes hbranching _ hsplit =>
    rcases hpoint takes with hlost | ⟨hallows, -, hobjective⟩
    · exact Or.inl ⟨_, takes.mem_calls, hlost⟩
    · obtain ⟨z, hz⟩ := exists_assigns hwhole
      have hparts := parts_of_split ht hover (Visit.finite_of_isUsable takes.usable) hallows
        ⟨z, (contains_iff_mem_box hover hz).mp hin⟩ hbranching hsplit
      obtain ⟨kid, hside, hkid⟩ := exists_contains_of_split hover hsplit hparts hwhole hin
      refine Or.inr (Or.inr ⟨fun other hother => ?_, kid, List.mem_pair.mpr hside, hkid⟩)
      rw [(Node.of_split hsplit (List.mem_pair.mp hother)).2.2.1]
      exact hobjective

end Search

/-- The children that a visited node has within its box do not have more than it. -/
theorem contains_of_split {answer : Answer Exact} {events : List (Event Exact)}
    {branching : Branching Exact} {s : Split Exact} {kid : Node Exact}
    (ht : Exact.ofRat 0 ≤ search.settings.integrality) (hwhole : search.problem.Whole p)
    (hover : node.IsOver search.problem)
    (takes : Visit.Takes search elapsed σ node answer events)
    (hbranching : search.criteria.branching? answer.point node = .ok (some branching))
    (hsplit : node.split branching (search.problem.objective answer.point) = .ok s)
    (hside : kid = s.continued ∨ kid = s.forked) (hallows : node.Allows answer.point)
    (hin : kid.Contains p) : node.Contains p := by
  obtain ⟨z, hz⟩ := exists_assigns hwhole
  rw [contains_iff_mem_box (hover.of_split hsplit hside) hz] at hin
  rw [contains_iff_mem_box hover hz]
  obtain ⟨i, _, _, -, -, -, hhalves | hhalves⟩ :=
    halves_of_split ht hover (Visit.finite_of_isUsable takes.usable) hallows hbranching hsplit
  · rcases hside with rfl | rfl
    · exact ((hhalves.below z).mp hin).1
    · exact ((hhalves.above z).mp hin).1
  · rcases hside with rfl | rfl
    · exact ((hhalves.above z).mp hin).1
    · exact ((hhalves.below z).mp hin).1

/-- If a child of a node without the point has it, it may promise what it does. -/
theorem Search.Tracks.bounds_of_visit (h : search.Tracks p Bounds Settles Lost)
    (ht : Exact.ofRat 0 ≤ search.settings.integrality) (hwhole : search.problem.Whole p)
    (hover : node.IsOver search.problem) (hout : ¬node.Contains p)
    (hvisit : visit search elapsed σ node = .ok v) {kid : Node Exact}
    (hkid : kid ∈ v.outcome.children) (hin : kid.Contains p) : Bounds kid.estimate := by
  obtain ⟨answer, events, branching, s, takes, hbranching, hsplit, -, hside⟩ :=
    children_of_visit hvisit hkid
  rcases h.elsewhere hover (fun _ => Criteria.suits_cutoff) hout takes.answered takes.feasible
    takes.usable with hallows | hbounds
  · exact absurd (contains_of_split ht hwhole hover takes hbranching hsplit hside hallows hin) hout
  · rw [(Node.of_split hsplit hside).2.2.1]
    exact hbounds

end

/-! ## Every schedule -/

namespace Run

/-- Some pending node has the point, and so has one inside every marked box that has it. The pending
nodes that have the point may promise what they do. -/
structure Carries (search : Search Exact) (p : Array Exact) (Bounds : Exact → Prop)
    (r : Run Exact) : Prop where
  bounds : ∀ node ∈ r.pending, node.Contains p → Bounds node.estimate
  pending : ∃ node ∈ r.pending, node.Contains p
  inside : ∀ z, search.problem.Assigns p z → ∀ cuts ∈ r.state.visited.boxes,
    z ∈ box search.problem.integers.size cuts → ∃ node ∈ r.pending, node.Contains p ∧
      box search.problem.integers.size node.cuts ⊂ box search.problem.integers.size cuts

/-- A point was lost by a call, it is settled by the incumbent, or a pending node has it. -/
def Tracked (search : Search Exact) (p : Array Exact) (Bounds Settles : Exact → Prop)
    (Lost : Call Exact → Prop) (r : Run Exact) : Prop :=
  (∃ call ∈ callsOf r.journal, Lost call) ∨
  (∃ best, r.state.board.best = some best ∧ Settles best.objective) ∨ r.Carries search p Bounds

variable {search : Search Exact} {p : Array Exact} {Bounds Settles : Exact → Prop}
  {Lost : Call Exact → Prop} {r s : Run Exact} {node : Node Exact} {rest : List (Node Exact)}
  {elapsed : Nat} {v : Visit Exact}

/-- The visit of a node leaves the point in a pending node, if one with the point takes its place
inside its box: a child, or another node. -/
theorem Carries.of_inside (hr : r.Carries search p Bounds) (hperm : r.pending.Perm (node :: rest))
    (hover : node.IsOver search.problem) (hvisit : visit search elapsed r.state node = .ok v)
    (hbounds : ∀ kid ∈ v.outcome.children, kid.Contains p → Bounds kid.estimate)
    (hplace : node.Contains p → ∃ other ∈ v.outcome.children ++ rest, other.Contains p ∧
      box search.problem.integers.size other.cuts ⊂ box search.problem.integers.size node.cuts) :
    (r.absorb rest v).Carries search p Bounds := by
  -- a node with the point that is not the visited one is still pending
  have hrest : ∀ other ∈ r.pending, other = node ∨ other ∈ v.outcome.children ++ rest := by
    intro other hother
    rcases List.mem_cons.mp (hperm.mem_iff.mp hother) with rfl | hmem
    · exact Or.inl rfl
    · exact Or.inr (List.mem_append_right _ hmem)
  refine ⟨?_, ?_, ?_⟩
  · intro other hother hin
    rw [pending_absorb] at hother
    rcases List.mem_append.mp hother with hkid | hmem
    · exact hbounds other hkid hin
    · exact hr.bounds other (hperm.mem_iff.mpr (List.mem_cons_of_mem _ hmem)) hin
  · rw [pending_absorb]
    obtain ⟨other, hother, hin⟩ := hr.pending
    rcases hrest other hother with rfl | hmem
    · obtain ⟨place, hmem, hin', -⟩ := hplace hin
      exact ⟨place, hmem, hin'⟩
    · exact ⟨other, hmem, hin⟩
  · intro z hz cuts hcuts hmem
    rw [pending_absorb]
    rw [state_absorb] at hcuts
    have hcases : cuts = node.cuts ∨ cuts ∈ r.state.visited.boxes := by
      rcases visited_of_visit hvisit with hmark | hsame
      · rw [hmark] at hcuts
        exact mem_boxes_of_mark hcuts
      · rw [hsame] at hcuts
        exact Or.inr hcuts
    rcases hcases with rfl | hold
    · exact hplace ((contains_iff_mem_box hover hz).mpr hmem)
    · obtain ⟨other, hother, hin, hsub⟩ := hr.inside z hz cuts hold hmem
      rcases hrest other hother with rfl | hmem'
      · obtain ⟨place, hmem', hin', hsub'⟩ := hplace hin
        exact ⟨place, hmem', hin', hsub'.trans hsub⟩
      · exact ⟨other, hmem', hin, hsub⟩

/-- A duplicate is a marked box, so another pending node has the point inside it. -/
theorem Carries.exists_of_duplicate (hr : r.Carries search p Bounds)
    (hperm : r.pending.Perm (node :: rest)) (hover : node.IsOver search.problem)
    (hwhole : search.problem.Whole p) (hold : (r.state.visited.mark node).1 = false)
    (hin : node.Contains p) : ∃ other ∈ rest, other.Contains p ∧
      box search.problem.integers.size other.cuts ⊂ box search.problem.integers.size node.cuts := by
  obtain ⟨z, hz⟩ := exists_assigns hwhole
  have hmarked : node.cuts ∈ r.state.visited.boxes := by
    cases he : r.state.visited.enabled with
    | false =>
      rw [Visited.mark_of_not_enabled he] at hold
      cases hold
    | true =>
      by_contra hnot
      rw [(Visited.mark_fst he node).mpr hnot] at hold
      cases hold
  obtain ⟨other, hother, hin', hsub⟩ :=
    hr.inside z hz node.cuts hmarked ((contains_iff_mem_box hover hz).mp hin)
  rcases List.mem_cons.mp (hperm.mem_iff.mp hother) with rfl | hmem
  · exact absurd hsub (ssubset_irrefl _)
  · exact ⟨other, hmem, hin', hsub⟩

/-- Every visit that leaves nothing out keeps the point tracked. -/
theorem Tracked.of_advances (h : search.Tracks p Bounds Settles Lost)
    (ht : Exact.ofRat 0 ≤ search.settings.integrality) (hwhole : search.problem.Whole p)
    (hcoherent : r.Coherent search)
    (hr : r.complete = true → r.Tracked search p Bounds Settles Lost)
    (hadvances : Advances search r s) (hcomplete : s.complete = true) :
    s.Tracked search p Bounds Settles Lost := by
  obtain ⟨before, after, node, elapsed, v, hperm, hvisit, rfl⟩ := hadvances.exists_visit
  have hover := hcoherent.isOver node (hperm.mem_iff.mpr List.mem_cons_self)
  rw [complete_absorb, Bool.and_eq_true] at hcomplete
  have hjournal : callsOf (r.absorb (before ++ after) v).journal =
      callsOf r.journal ++ v.events.filterMap Event.call? := by
    rw [journal_absorb, callsOf_append]
  rcases hr hcomplete.1 with ⟨call, hcall, hlost⟩ | hsettled | hcarries
  · refine Or.inl ⟨call, ?_, hlost⟩
    rw [hjournal]
    exact List.mem_append_left _ hcall
  · refine Or.inr (Or.inl ?_)
    rw [state_absorb]
    exact h.toSettling.of_visit hcoherent.sense hvisit hsettled
  · by_cases hin : node.Contains p
    · cases hmark : (r.state.visited.mark node).1 with
      | false =>
        refine Or.inr (Or.inr (hcarries.of_inside hperm hover hvisit ?_ fun _ => ?_))
        · intro kid hkid
          obtain ⟨_, _, _, _, takes, -⟩ := children_of_visit hvisit hkid
          cases hmark.symm.trans takes.isNew
        · obtain ⟨other, hother, hplace⟩ :=
            hcarries.exists_of_duplicate hperm hover hwhole hmark hin
          exact ⟨other, List.mem_append_right _ hother, hplace⟩
      | true =>
        rcases h.of_visit ht hwhole hover hcoherent.sense hmark hin
          (hcarries.bounds node (hperm.mem_iff.mpr List.mem_cons_self) hin) hvisit hcomplete.2 with
          ⟨call, hcall, hlost⟩ | hsettled | ⟨hbounds, kid, hkid, hin', hsub⟩
        · refine Or.inl ⟨call, ?_, hlost⟩
          rw [hjournal]
          exact List.mem_append_right _ hcall
        · refine Or.inr (Or.inl ?_)
          rw [state_absorb]
          exact hsettled
        · exact Or.inr (Or.inr (hcarries.of_inside hperm hover hvisit
            (fun kid hkid _ => hbounds kid hkid)
            fun _ => ⟨kid, List.mem_append_left _ hkid, hin', hsub⟩))
    · exact Or.inr (Or.inr (hcarries.of_inside hperm hover hvisit
        (fun kid hkid => h.bounds_of_visit ht hwhole hover hin hvisit hkid)
        fun hin' => absurd hin' hin))

/-- A whole point is tracked at the start: it lies in the root. -/
theorem tracked_start (h : search.Tracks p Bounds Settles Lost) (hwhole : search.problem.Whole p)
    {warmStart : Option (Array Exact)} (hstart : search.start warmStart = .ok r) :
    r.Tracked search p Bounds Settles Lost := by
  obtain ⟨hpending, hopens, -⟩ := Search.start_eq_ok hstart
  refine Or.inr (Or.inr ⟨?_, ⟨search.root, ?_, ?_⟩, ?_⟩)
  · intro node hnode _
    rw [hpending, List.mem_singleton] at hnode
    rw [hnode]
    exact h.root
  · rw [hpending]
    exact List.mem_singleton_self search.root
  · obtain ⟨z, hz⟩ := exists_assigns hwhole
    exact (contains_iff_mem_box Node.isOver_root hz).mpr (mem_box_root z)
  · intro z _ cuts hcuts
    rw [hopens.visited] at hcuts
    exact absurd hcuts Std.HashSet.not_mem_empty

/-- Along a schedule that is through and left nothing out, a call lost the point, or the incumbent
settles it. -/
theorem lost_or_settled (h : search.Tracks p Bounds Settles Lost)
    (hcheck : search.settings.check = .ok ()) (hwhole : search.problem.Whole p)
    {warmStart : Option (Array Exact)} (hstart : search.start warmStart = .ok r)
    (hreaches : Reaches search r s) (hcomplete : s.complete = true) (hpending : s.pending = []) :
    (∃ call ∈ callsOf s.journal, Lost call) ∨
      ∃ best, s.state.board.best = some best ∧ Settles best.objective := by
  have ht := Settings.integrality_nonneg hcheck
  obtain ⟨-, htracked⟩ := invariant_of_reaches
    (P := fun r => r.Coherent search ∧
      (r.complete = true → r.Tracked search p Bounds Settles Lost))
    (fun hstep hr => ⟨hr.1.of_advances hstep,
      Tracked.of_advances h ht hwhole hr.1 hr.2 hstep⟩) hreaches
    ⟨coherent_start hstart, fun _ => tracked_start h hwhole hstart⟩
  rcases htracked hcomplete with hlost | hsettled | hcarries
  · exact Or.inl hlost
  · exact Or.inr hsettled
  · obtain ⟨node, hnode, -⟩ := hcarries.pending
    rw [hpending] at hnode
    cases hnode

end Run

end BranchBound
