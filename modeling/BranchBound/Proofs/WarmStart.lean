import BranchBound.Proofs.Domination
import BranchBound.Proofs.OneRow.WholePrograms

/-!
# Warm starts

Without a gap, a warm start only helps a search whose relaxation uses the cutoff as a hint and whose
nodes promise no more than their parents (`warm_start_helps`).

The run from the warm start is held against the cold run. It shadows it (`Run.Shadows`): its
pending nodes are the last ones of the cold run, and what the cold run still has before them is
dominated by the warm run's incumbent, so nothing comes of it. Where both come to the same node
(`Run.Meet`), the warm run does what the cold run does, or its better incumbent lets it drop the
node, and the children that the cold run goes on with are dominated. So one visit of the cold run is
matched by one of the warm run or by none (`Run.Shadows.exists_of_visit`).
-/

namespace BranchBound

open Scalar

variable {search : Search Exact} {R : Node Exact → Answer Exact}

/-! ## Steady searches -/

/-- A search without gap and time limit whose relaxation uses the cutoff as a hint, with valid
objective values that no child improves. -/
structure Search.Steady (search : Search Exact) (R : Node Exact → Answer Exact) : Prop where
  gapless : search.Gapless
  hinted : search.relaxation = .hinted search.problem R
  monotone : search.Monotone R
  valid : ∀ {x : Array Exact}, Visit.isUsable search x = true → search.problem.objective x ≠ .nan
  timeLimit : search.settings.timeLimit = none
  logFrequency : search.settings.logFrequency ≠ 0
  known : ∀ var ∈ search.problem.integers, var < search.problem.size

namespace Run

variable {r : Run Exact} {node : Node Exact} {rest : List (Node Exact)} {elapsed : Nat}
  {v : Visit Exact}

theorem Plain.bestValue_ne_nan (h : r.Plain search) : r.state.board.bestValue ≠ some .nan := by
  unfold Scoreboard.bestValue
  intro hnan
  obtain ⟨best, hbest, hobjective⟩ := Option.map_eq_some_iff.mp hnan
  exact Exact.isNaN_eq_false_iff.mp (h.coherent.best best hbest).1 hobjective

/-! ## Shadows -/

/-- A run from a warm start of value `start` that follows the cold run. It has the better of the
start and what the cold run has found, and all that it skips of the pending nodes is dominated by
that. -/
structure Shadows (search : Search Exact) (R : Node Exact → Answer Exact) (start : Exact)
    (cold warm : Run Exact) : Prop where
  plainCold : cold.Plain search
  plainWarm : warm.Plain search
  complete : warm.complete = true
  noLonger : NoLonger warm cold
  incumbent : warm.state.board.bestValue =
    some (search.problem.sense.lead start cold.state.board.bestValue)
  pending : ∃ skipped, cold.pending = skipped ++ warm.pending ∧ ∀ node ∈ skipped,
    search.Dominated R (search.problem.sense.lead start cold.state.board.bestValue) node
  estimates : ∀ node ∈ cold.pending, search.Dominated R node.estimate node

namespace Shadows

variable {start : Exact} {cold warm next : Run Exact} {elapsed' : Nat} {w : Visit Exact}

/-- The incumbent of the shadow is as good as that of the cold run. -/
theorem noWorse (hstart : start ≠ .nan) (h : Shadows search R start cold warm) {value : Exact}
    (hvalue : cold.state.board.bestValue = some value) : search.problem.sense.noWorse
      (search.problem.sense.lead start cold.state.board.bestValue) value := by
  have hvalid : value ≠ .nan := by
    rintro rfl
    exact h.plainCold.bestValue_ne_nan hvalue
  rw [hvalue]
  exact Sense.lead_noWorse hstart hvalid

/-- What the shadow gets the cold run gets. -/
theorem gets (hs : search.Steady R) (hstart : start ≠ .nan) (h : Shadows search R start cold warm)
    (hgets : search.Gets R warm.state.board.bestValue node) :
    search.Gets R cold.state.board.bestValue node := by
  rw [h.incumbent] at hgets
  exact hgets.mono hs.gapless fun _ => h.noWorse hstart

/-- The children that come of a visit of the cold run promise what they hold. -/
theorem estimates_absorb (hs : search.Steady R) (h : Shadows search R start cold warm)
    (hpending : cold.pending = node :: rest) (hv : visit search elapsed cold.state node = .ok v) :
    ∀ other ∈ (cold.absorb rest v).pending, search.Dominated R other.estimate other := by
  have hover := h.plainCold.coherent.isOver_head hpending
  intro other hother
  rw [pending_absorb, List.mem_append] at hother
  rcases hother with hkid | hrest
  · obtain ⟨hestimate, hdominated, -⟩ := dominated_of_visit hs.hinted hs.monotone hover hv hkid
    rw [hestimate]
    exact hdominated
  · exact h.estimates other (by rw [hpending]; exact List.mem_cons_of_mem node hrest)

/-- A visit of the cold run to a dominated node: its children join the nodes that the shadow
skips. -/
theorem of_dominated (hs : search.Steady R) (hstart : start ≠ .nan)
    (h : Shadows search R start cold warm) (hpending : cold.pending = node :: rest)
    (hexhaustive : v.outcome.isExhaustive = true)
    (hv : visit search elapsed cold.state node = .ok v)
    (hdominated : search.Dominated R
      (search.problem.sense.lead start cold.state.board.bestValue) node)
    (hnext : next.Plain search) (hcomplete : next.complete = true)
    (hnoLonger : NoLonger next (cold.absorb rest v))
    (hbest : next.state.board.bestValue = warm.state.board.bestValue)
    (hskipped : ∃ skipped, rest = skipped ++ next.pending ∧ ∀ other ∈ skipped,
      search.Dominated R (search.problem.sense.lead start cold.state.board.bestValue) other) :
    Shadows search R start (cold.absorb rest v) next := by
  have hover := h.plainCold.coherent.isOver_head hpending
  have hlead := lead_of_visit hs.hinted (h.plainCold.isNew node) h.plainCold.coherent.sense
    hdominated hexhaustive hv
  obtain ⟨skipped, hrest, hall⟩ := hskipped
  refine ⟨h.plainCold.of_visit hpending hv, hnext, hcomplete, hnoLonger, ?_,
    ⟨v.outcome.children ++ skipped, ?_, ?_⟩, h.estimates_absorb hs hpending hv⟩
  · rw [state_absorb, hlead, hbest]
    exact h.incumbent
  · rw [pending_absorb, hrest, List.append_assoc]
  · rw [state_absorb, hlead]
    intro other hother
    rcases List.mem_append.mp hother with hkid | hold
    -- a child's answers are no better than its parent's, which the incumbent is as good as
    · obtain ⟨-, hkid', hfeasible, husable⟩ :=
        dominated_of_visit hs.hinted hs.monotone hover hv hkid
      exact hkid'.trans (hs.valid husable)
        (Sense.lead_valid hstart h.plainCold.bestValue_ne_nan) (hdominated hfeasible)
    · exact hall other hold

/-- The shadow can visit what the cold run visits, within the same budget. -/
theorem exists_visit (hs : search.Steady R) (hstart : start ≠ .nan)
    (h : Shadows search R start cold warm) (hpending : cold.pending = node :: rest)
    (hexhaustive : v.outcome.isExhaustive = true)
    (hv : visit search elapsed cold.state node = .ok v) (elapsed' : Nat) :
    ∃ w, visit search elapsed' warm.state node = .ok w ∧ w.outcome.isExhaustive = true := by
  have hover := h.plainCold.coherent.isOver_head hpending
  obtain ⟨w, hw⟩ : ∃ w, visit search elapsed' warm.state node = .ok w :=
    visit_ok hs.logFrequency hover hs.known fun cutoff => hinted_ok hs.hinted _ cutoff
  refine ⟨w, hw, isExhaustive_of_visit ?_ (fun asks hfeasible => ?_) hw⟩
  · exact h.plainCold.limited.allows h.plainWarm.limited h.noLonger.iterations
      (Or.inl hs.timeLimit) (allows_of_isExhaustive hexhaustive hv)
  · obtain ⟨hgets, rfl⟩ := gets_of_asks hs.hinted asks hfeasible
    rcases course_of_hinted hs.hinted (h.plainCold.isNew node) hexhaustive hv with
      ⟨-, husable, haffordable, -⟩ | ⟨hnot, -⟩
    · exact ⟨husable, h.plainCold.limited.isExhausted_spend h.plainWarm.limited
        h.noLonger.iterations haffordable⟩
    · exact absurd (h.gets hs hstart hgets) hnot

end Shadows

/-! ## Meetings -/

/-- Both runs visit the same node and leave nothing out; the other pending nodes are the same. -/
structure Meet (search : Search Exact) (cold warm : Run Exact) (node : Node Exact)
    (rest : List (Node Exact)) (v w : Visit Exact) : Prop where
  pendingCold : cold.pending = node :: rest
  pendingWarm : warm.pending = node :: rest
  visitCold : ∃ elapsed, visit search elapsed cold.state node = .ok v
  visitWarm : ∃ elapsed, visit search elapsed warm.state node = .ok w
  exhaustiveCold : v.outcome.isExhaustive = true
  exhaustiveWarm : w.outcome.isExhaustive = true

namespace Meet

variable {start : Exact} {cold warm : Run Exact} {w : Visit Exact} (hs : search.Steady R)
  (hstart : start ≠ .nan) (h : Shadows search R start cold warm)
  (hm : Meet search cold warm node rest v w)

include hs hstart h hm

/-- The shadow is as it has to be apart from its incumbent and its pending nodes. -/
theorem keeps : (warm.absorb rest w).Plain search ∧ (warm.absorb rest w).complete = true ∧
    NoLonger (warm.absorb rest w) (cold.absorb rest v) := by
  obtain ⟨elapsed, hv⟩ := hm.visitCold
  obtain ⟨elapsed', hw⟩ := hm.visitWarm
  refine ⟨h.plainWarm.of_visit hm.pendingWarm hw, ?_, ?_⟩
  · rw [complete_absorb, h.complete, hm.exhaustiveWarm]
    rfl
  · refine h.noLonger.of_visits h.plainWarm h.plainCold (fun himproves => ?_) (fun hspend => ?_)
      hm.exhaustiveCold hv hm.exhaustiveWarm hw
    · rw [h.incumbent] at himproves
      exact hs.gapless.mayImprove_mono (fun _ => h.noWorse hstart) himproves
    · -- an iteration is spent on the points that a run gets
      rcases course_of_hinted hs.hinted (h.plainWarm.isNew node) hm.exhaustiveWarm hw with
        ⟨hg, -⟩ | ⟨-, hsame, -⟩
      · rcases course_of_hinted hs.hinted (h.plainCold.isNew node) hm.exhaustiveCold hv with
          ⟨-, -, -, hspend', -⟩ | ⟨hng, -⟩
        · exact hspend'
        · exact absurd (h.gets hs hstart hg) hng
      · exact absurd (hspend.symm.trans hsame) (Budget.spend_ne _)

/-- A dominated node changes nothing in the shadow. -/
theorem of_dominated (hdominated : search.Dominated R
      (search.problem.sense.lead start cold.state.board.bestValue) node)
    (hchildren : w.outcome.children = [])
    (hbest : w.state.board.bestValue = warm.state.board.bestValue) :
    Shadows search R start (cold.absorb rest v) (warm.absorb rest w) := by
  obtain ⟨elapsed, hv⟩ := hm.visitCold
  obtain ⟨hplain, hcomplete, hnoLonger⟩ := hm.keeps hs hstart h
  refine h.of_dominated hs hstart hm.pendingCold hm.exhaustiveCold hv hdominated hplain hcomplete
    hnoLonger (by rw [state_absorb]; exact hbest) ⟨[], ?_, fun other hother => nomatch hother⟩
  rw [pending_absorb, hchildren]
  rfl

/-- What is not dominated gives both runs the same incumbent or the same children. -/
theorem of_equal (hchildren : v.outcome.children = w.outcome.children)
    (hbest : w.state.board.bestValue =
      some (search.problem.sense.lead start v.state.board.bestValue)) :
    Shadows search R start (cold.absorb rest v) (warm.absorb rest w) := by
  obtain ⟨elapsed, hv⟩ := hm.visitCold
  obtain ⟨hplain, hcomplete, hnoLonger⟩ := hm.keeps hs hstart h
  refine ⟨h.plainCold.of_visit hm.pendingCold hv, hplain, hcomplete, hnoLonger, ?_,
    ⟨[], ?_, fun other hother => nomatch hother⟩, h.estimates_absorb hs hm.pendingCold hv⟩
  · rw [state_absorb, state_absorb]
    exact hbest
  · rw [pending_absorb, pending_absorb, hchildren]
    rfl

/-- A whole point beats both incumbents, or the node is dominated. -/
theorem of_offer (hbranching : search.criteria.branching? (R node).point node = .ok none)
    (hchildren : w.outcome.children = [])
    (hbest : w.state.board.best = (warm.state.board.countSolved.offer (R node).point
      (search.value R node)).2.best) (hcold : search.Uses R cold.state node v) :
    Shadows search R start (cold.absorb rest v) (warm.absorb rest w) := by
  replace hbest : w.state.board.bestValue = (warm.state.board.countSolved.offer (R node).point
      (search.value R node)).2.bestValue := congrArg (Option.map Incumbent.objective) hbest
  cases hb : search.problem.sense.better (search.value R node)
      (search.problem.sense.lead start cold.state.board.bestValue) with
  | false =>
    refine hm.of_dominated hs hstart h (fun _ => hb) hchildren ?_
    rw [hbest, h.incumbent]
    exact Scoreboard.bestValue_offer_of_not_better warm.state.board.countSolved
      h.plainWarm.coherent.sense h.incumbent hb
  | true =>
    cases hcold with
    | offer _ hchildren' hbest' =>
      replace hbest' : v.state.board.bestValue = (cold.state.board.countSolved.offer
          (R node).point (search.value R node)).2.bestValue :=
        congrArg (Option.map Incumbent.objective) hbest'
      refine hm.of_equal hs hstart h (hchildren'.trans hchildren.symm) ?_
      rw [hbest, hbest', Scoreboard.lead_offer_of_better cold.state.board.countSolved
        h.plainCold.coherent.sense hstart h.plainCold.bestValue_ne_nan hb]
      refine Scoreboard.bestValue_offer_of_better warm.state.board.countSolved
        h.plainWarm.coherent.sense (Sense.valid_of_noWorse (Sense.noWorse_of_better hb)).1 ?_
      intro old hold
      rw [← Option.some.inj (h.incumbent.symm.trans hold)]
      exact hb
    | drop hsome | split hsome =>
      rw [hbranching] at hsome
      cases hsome

/-- The cold run splits a node that the shadow splits. -/
theorem of_split {branching : Branching Exact} {t : Split Exact}
    (hbranching : search.criteria.branching? (R node).point node = .ok (some branching))
    (himproves : search.criteria.mayImprove (search.value R node) warm.state.board.bestValue = true)
    (hsplit : node.split branching (search.value R node) = .ok t)
    (hchildren : w.outcome.children = [t.continued, t.forked])
    (hbest : w.state.board.bestValue = warm.state.board.bestValue)
    (hcold : search.Uses R cold.state node v) :
    Shadows search R start (cold.absorb rest v) (warm.absorb rest w) := by
  cases hcold with
  | offer hwhole =>
    rw [hbranching] at hwhole
    cases hwhole
  | drop _ hnot =>
    -- what may improve on the shadow's incumbent may improve on that of the cold run
    rw [h.incumbent] at himproves
    rw [hs.gapless.mayImprove_mono (fun _ => h.noWorse hstart) himproves] at hnot
    cases hnot
  | split hbranching' _ hsplit' hchildren' hbest' =>
    rw [hbranching] at hbranching'
    obtain rfl := Option.some.inj (Except.ok.inj hbranching')
    rw [hsplit] at hsplit'
    obtain rfl := Except.ok.inj hsplit'
    refine hm.of_equal hs hstart h (hchildren'.trans hchildren.symm) ?_
    rw [hbest, h.incumbent]
    unfold Scoreboard.bestValue
    rw [hbest']

/-- What the shadow does at a node the cold run does, or the node is dominated. -/
theorem shadows : Shadows search R start (cold.absorb rest v) (warm.absorb rest w) := by
  obtain ⟨elapsed, hv⟩ := hm.visitCold
  obtain ⟨elapsed', hw⟩ := hm.visitWarm
  have hsame : w.state.board.best = warm.state.board.best →
      w.state.board.bestValue = warm.state.board.bestValue :=
    congrArg (Option.map Incumbent.objective)
  rcases course_of_hinted hs.hinted (h.plainWarm.isNew node) hm.exhaustiveWarm hw with
    ⟨hgets, -, -, -, huses⟩ | ⟨hnot, -, hchildren, hbest⟩
  -- the cold run prunes less, so it gets every point that the shadow gets
  · rcases course_of_hinted hs.hinted (h.plainCold.isNew node) hm.exhaustiveCold hv with
      ⟨-, -, -, -, hcold⟩ | ⟨hnot, -⟩
    · cases huses with
      | offer hbranching hchildren hbest =>
        exact hm.of_offer hs hstart h hbranching hchildren hbest hcold
      | drop hbranching hnot hchildren hbest =>
        refine hm.of_dominated hs hstart h (fun _ => ?_) hchildren (hsame hbest)
        rw [h.incumbent] at hnot
        exact Sense.not_better_of_noWorse (hs.gapless.mayImprove_eq_false_iff.mp hnot)
      | split hbranching himproves hsplit hchildren hbest =>
        exact hm.of_split hs hstart h hbranching himproves hsplit hchildren (hsame hbest) hcold
    · exact absurd (h.gets hs hstart hgets) hnot
  · refine hm.of_dominated hs hstart h ?_ hchildren (hsame hbest)
    rw [h.incumbent] at hnot
    refine Search.dominated_of_not_gets hs.gapless (h.estimates node ?_) hnot
    rw [hm.pendingCold]
    exact List.mem_cons_self

end Meet

/-! ## Shadows to the end -/

namespace Shadows

variable {start : Exact} {cold warm : Run Exact}

/-- A visit of the cold run is matched by one of its shadow or by none. -/
theorem exists_of_visit (hs : search.Steady R) (hstart : start ≠ .nan)
    (h : Shadows search R start cold warm) (hpending : cold.pending = node :: rest)
    (hexhaustive : v.outcome.isExhaustive = true)
    (hv : visit search elapsed cold.state node = .ok v) (clock : Nat → Nat) :
    ∃ next, Shadows search R start (cold.absorb rest v) next ∧
      run search clock warm = run search clock next := by
  obtain ⟨skipped, hsplit, hdominated⟩ := h.pending
  rw [hpending] at hsplit
  cases skipped with
  | nil =>
    -- both runs are at the same node
    rw [List.nil_append] at hsplit
    obtain ⟨w, hw, hexhaustive'⟩ :=
      h.exists_visit hs hstart hpending hexhaustive hv (clock warm.visits)
    have hm : Meet search cold warm node rest v w :=
      ⟨hpending, hsplit.symm, ⟨elapsed, hv⟩, ⟨_, hw⟩, hexhaustive, hexhaustive'⟩
    exact ⟨warm.absorb rest w, hm.shadows hs hstart h, run_of_visit hsplit.symm hw⟩
  | cons first others =>
    -- the shadow waits while the cold run works off what it skips
    rw [List.cons_append, List.cons.injEq] at hsplit
    obtain ⟨rfl, hrest⟩ := hsplit
    refine ⟨warm, ?_, rfl⟩
    exact h.of_dominated hs hstart hpending hexhaustive hv (hdominated node List.mem_cons_self)
      h.plainWarm h.complete (h.noLonger.of_visit h.plainCold hexhaustive hv) rfl
      ⟨others, hrest, fun other hother => hdominated other (List.mem_cons_of_mem node hother)⟩

/-- If the cold run comes to its end and leaves nothing out, its shadow comes to an end with it. -/
theorem run_ok (hs : search.Steady R) (hstart : start ≠ .nan) {clock : Nat → Nat} {s : Run Exact}
    (h : Shadows search R start cold warm) (hrun : run search clock cold = .ok s)
    (hcomplete : s.complete = true) (clock' : Nat → Nat) :
    ∃ t, run search clock' warm = .ok t ∧ Shadows search R start s t := by
  refine exists_run_of_simulation (fun h hpending hv hexhaustive _ => ?_) (fun h hdone => ?_) h hrun
    hcomplete
  · exact h.exists_of_visit hs hstart hpending hexhaustive hv clock'
  · obtain ⟨skipped, hpending, -⟩ := h.pending
    rw [hdone] at hpending
    exact (List.append_eq_nil_iff.mp hpending.symm).2

/-- The run from an accepted start shadows the cold one from the beginning. -/
theorem of_start (hdedup : search.settings.dedup = false) (hstart : start ≠ .nan)
    {x : Array Exact} (hx : search.problem.objective x = start)
    (hcold : search.start none = .ok cold) (hwarm : search.start (some x) = .ok warm)
    (hboard : warm.state.board =
      ((State.initial search).board.offer x (search.problem.objective x)).2) :
    Shadows search R start cold warm := by
  obtain ⟨hpending, hopens, -, -, -, hcalls⟩ := Search.start_eq_ok hcold
  obtain ⟨hpending', hopens', hcomplete, -, -, hcalls'⟩ := Search.start_eq_ok hwarm
  have hinitial := hopens.eq_initial
  refine ⟨plain_start hdedup hcold, plain_start hdedup hwarm, hcomplete, ⟨?_, ?_, ?_⟩, ?_,
    ⟨[], ?_, fun node hnode => nomatch hnode⟩, ?_⟩
  · show ((callsOf warm.journal).map Call.node).Sublist _
    rw [hcalls']
    exact List.nil_sublist _
  · rw [hboard, Scoreboard.solved_offer]
    exact Nat.zero_le _
  · rw [hopens.budget, hopens'.budget]
  · rw [hboard, hx, hinitial]
    exact Scoreboard.bestValue_offer_of_better _ rfl hstart fun old hold => nomatch hold
  · rw [hpending, hpending']
    rfl
  · intro node hnode
    rw [hpending, List.mem_singleton] at hnode
    rw [hnode]
    exact fun _ => Sense.not_better_best _

end Shadows

end Run

/-! ## Warm starts -/

/-- If a search without a gap goes through its tree from a cold start, it does so from every warm
start that it accepts. It then asks about some of the same nodes, in the same order, and counts no
more of them, and its objective value is the better one of the start and the cold search. -/
theorem warm_start_helps {search : Search Exact} {R : Node Exact → Answer Exact}
    (hR : search.relaxation = .hinted search.problem R) (hmono : search.Monotone R)
    (hexact : ∀ x : Array Exact, x.size = search.problem.size →
      (∀ v ∈ x, isFinite v = true) → ∃ q : ℚ, search.problem.objective x = .ofRat q)
    (hg : search.settings.relativeGap = .ofRat 0) (ha : search.settings.absoluteGap = .ofRat 0)
    (hdedup : search.settings.dedup = false) (htime : search.settings.timeLimit = none)
    {clock : Nat → Nat} {cold : Report Exact} (hcold : search.solve none clock = .ok cold)
    (hstatus : cold.solution.status = .optimal ∨ cold.solution.status = .infeasible)
    {x : Array Exact} (haccepts : search.acceptsStart x = .ok true) {s : ℚ}
    (hs : search.problem.objective x = .ofRat s) (clock' : Nat → Nat) :
    ∃ warm, search.solve (some x) clock' = .ok warm ∧ warm.solution.status = .optimal ∧
      ((callsOf warm.journal).map Call.node).Sublist ((callsOf cold.journal).map Call.node) ∧
      warm.solution.solved ≤ cold.solution.solved ∧
      warm.solution.objective =
        if search.problem.sense.better cold.solution.objective (.ofRat s) then
          cold.solution.objective
        else .ofRat s := by
  obtain ⟨hcheck, r, t, hr, hrun, rfl⟩ := Search.solve_eq_ok hcold
  -- a point that the search can use has a rational value
  have hsteady : search.Steady R := by
    refine ⟨⟨hg, ha⟩, hR, hmono, fun husable => ?_, htime,
      (Settings.of_check hcheck).2.2.2, Search.known_of_accepts haccepts⟩
    obtain ⟨q, hq⟩ := hexact _ (Visit.size_of_isUsable husable) (Visit.finite_of_isUsable husable)
    rw [hq]
    simp
  have hcomplete := Run.complete_of_status hstatus
  obtain ⟨r', hr', hboard⟩ := Search.start_of_accepts haccepts
  have hstart : Exact.ofRat s ≠ .nan := by simp
  obtain ⟨t', hrun', h⟩ := (Run.Shadows.of_start (R := R) hdedup hstart hs hr hr' hboard).run_ok
    hsteady hstart hrun hcomplete clock'
  refine ⟨t'.finish (clock' t'.visits), Search.solve_of_run hcheck hr' hrun', ?_, ?_,
    h.noLonger.solved, ?_⟩
  · obtain ⟨best, hbest, -⟩ := Option.map_eq_some_iff.mp h.incumbent
    exact Run.status_finish_eq_optimal_iff.mpr ⟨h.complete, best, hbest⟩
  · rw [Run.callsOf_finish, Run.callsOf_finish]
    exact h.noLonger.asked
  · show t'.state.board.bestValue.getD Scalar.nan = _
    show _ = if search.problem.sense.better (t.state.board.bestValue.getD .nan) _ then
      t.state.board.bestValue.getD .nan else _
    rw [h.incumbent]
    cases t.state.board.bestValue with
    | none =>
      rw [Option.getD_none, Sense.not_nan_better]
      rfl
    | some value => rfl

namespace WarmStart

/-- Answers for the sample program: `x` is three halves at first, then one or there is no point. -/
def sampleAnswers (node : Node Exact) : Answer Exact :=
  if node.depth = 0 then .optimal #[.ofRat (3 / 2), .ofRat 0] (.ofRat (3 / 2))
  else if node.cuts[0]? = some { atMost := some 1 } then .optimal #[.ofRat 1, .ofRat 0] (.ofRat 1)
  else .infeasible

def sample : Search Exact where
  problem := OneRow.Sample.program.problem
  relaxation := .hinted OneRow.Sample.program.problem sampleAnswers
  settings := .gapless

/-- An answer for the sample program with a point is the first one or whole. -/
theorem sampleAnswers_cases {node : Node Exact}
    (h : (sampleAnswers node).verdict.isFeasible = true) :
    sample.value sampleAnswers node = .ofRat (3 / 2) ∨
      (sampleAnswers node).point = #[.ofRat 1, .ofRat 0] := by
  unfold Search.value
  unfold sampleAnswers at h ⊢
  split
  · exact Or.inl (by decide +kernel)
  · split
    · exact Or.inr rfl
    · rename_i hdepth hcut
      rw [if_neg hdepth, if_neg hcut] at h
      cases h

theorem monotone_sample : sample.Monotone sampleAnswers := by
  intro node kid branching s _ hfeasible hbranching _ _ hkid
  have hnode : sample.value sampleAnswers node = .ofRat (3 / 2) := by
    rcases sampleAnswers_cases hfeasible with hvalue | hpoint
    · exact hvalue
    · rw [hpoint] at hbranching
      obtain ⟨-, hentry, hfrac⟩ := Criteria.branching?_eq_some hbranching
      have hmem := Array.mem_of_getElem? hentry
      rw [List.mem_toArray, List.mem_pair] at hmem
      rcases hmem with hv | hv
      · rw [hv] at hfrac
        exact absurd hfrac (by decide +kernel)
      · rw [hv] at hfrac
        exact absurd hfrac (by decide +kernel)
  rw [hnode]
  rcases sampleAnswers_cases hkid with hvalue | hpoint
  · rw [hvalue]
    decide +kernel
  · unfold Search.value
    rw [hpoint]
    decide +kernel

end WarmStart

/-- The sample program from a start of value zero: the search finds a value of one, as it does
without the start. -/
theorem warm_start_helps_sample : ∃ cold warm,
    WarmStart.sample.solve none (fun _ => 0) = .ok cold ∧
    WarmStart.sample.solve (some #[.ofRat 0, .ofRat 0]) (fun _ => 0) = .ok warm ∧
    warm.solution.objective = .ofRat 1 ∧ warm.solution.solved ≤ cold.solution.solved := by
  have hrun : (WarmStart.sample.solve none (fun _ => 0)).toOption.map
      (fun report => (report.solution.status, report.solution.objective)) =
      some (.optimal, .ofRat 1) := by decide +kernel
  cases hcold : WarmStart.sample.solve none (fun _ => 0) with
  | error e =>
    rw [hcold] at hrun
    cases hrun
  | ok cold =>
    rw [hcold] at hrun
    obtain ⟨hstatus, hobjective⟩ := Prod.mk.inj (Option.some.inj hrun)
    have haccepts : WarmStart.sample.acceptsStart #[.ofRat 0, .ofRat 0] = .ok true := by
      decide +kernel
    have hzero : WarmStart.sample.problem.objective #[.ofRat 0, .ofRat 0] = .ofRat 0 := by
      decide +kernel
    obtain ⟨warm, hwarm, -, -, hsolved, hvalue⟩ := warm_start_helps rfl WarmStart.monotone_sample
      (fun _ hsize hx => Program.exists_objective_eq (p := OneRow.Sample.program)
        (by decide +kernel) rfl hsize hx)
      rfl Settings.absoluteGap_gapless rfl rfl hcold (Or.inl hstatus) haccepts hzero fun _ => 0
    rw [hobjective] at hvalue
    exact ⟨cold, warm, rfl, hwarm, hvalue, hsolved⟩

end BranchBound
