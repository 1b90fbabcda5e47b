import BranchBound.Proofs.Coverage
import BranchBound.Proofs.OneRow.WholePrograms

/-!
# Agreement of schedules

Without a gap, and if the whole points that come up belong to a set `S` for which the relaxation is
sound, a schedule that leaves nothing out ends with a best point of `S` (`Run.Invariant.optimum`).
So all such schedules end with the same value, though they see different incumbents on the way and
prune, solve and branch on different nodes (`schedules_agree`).
-/

namespace BranchBound

namespace Run

variable {search : Search Exact} {S : Set (Array Exact)} {r s : Run Exact}

/-- Whether the incumbent of a run, if there is one, belongs to a set. -/
def FoundIn (S : Set (Array Exact)) (r : Run Exact) : Prop :=
  ∀ best, r.state.board.best = some best → best.point ∈ S

theorem FoundIn.of_advances (hleaves : search.LeavesIn S) (hcoherent : r.Coherent search)
    (hr : r.FoundIn S) (h : Advances search r s) : s.FoundIn S := by
  obtain ⟨before, after, node, elapsed, v, hperm, hvisit, rfl⟩ := h.exists_visit
  have hover := hcoherent.isOver node (hperm.mem_iff.mpr List.mem_cons_self)
  intro best hbest
  rw [state_absorb] at hbest
  rcases best_cases_of_visit hvisit hbest with hold | ⟨answer, _, takes, hnone, -, rfl⟩
  · exact hr best hold
  · exact hleaves hover takes.answered takes.feasible takes.usable hnone

/-- Along every schedule from a cold start the incumbent belongs to `S`. -/
theorem foundIn_of_start {start : Run Exact} (hleaves : search.LeavesIn S)
    (hstart : search.start none = .ok start) (h : Reaches search start r) : r.FoundIn S := by
  have hboth : r.Coherent search ∧ r.FoundIn S := by
    refine invariant_of_reaches (P := fun r => r.Coherent search ∧ r.FoundIn S)
      (fun hstep hr => ⟨hr.1.of_advances hstep, hr.2.of_advances hleaves hr.1 hstep⟩) h
      ⟨coherent_start hstart, fun best hbest => ?_⟩
    rcases (Search.start_eq_ok hstart).2.1.best_cases with hnone | ⟨x, hx, -⟩
    · rw [hnone] at hbest
      cases hbest
    · cases hx
  exact hboth.2

/-- Without a gap, a schedule that is through and left nothing out has a best point of `S`, if there
is any. -/
theorem Invariant.optimum (hs : s.Invariant search S) (hfound : s.FoundIn S)
    (hg : search.settings.relativeGap = .ofRat 0) (ha : search.settings.absoluteGap = .ofRat 0)
    (hcomplete : s.complete = true) (hpending : s.pending = []) {p : Array Exact} (hp : p ∈ S) :
    ∃ best, s.state.board.best = some best ∧ best.point ∈ S ∧
      best.objective = search.problem.objective best.point ∧ best.objective ≠ .nan ∧
      search.problem.sense.better (search.problem.objective p) best.objective = false := by
  obtain ⟨best, hbest, hcloses⟩ := hs.closes_of_pending_eq_nil hcomplete hpending hp
  obtain ⟨hvalid, hobjective⟩ := hs.coherent.best best hbest
  refine ⟨best, hbest, hfound best hbest, hobjective, Exact.isNaN_eq_false_iff.mp hvalid, ?_⟩
  rcases hcloses with hnot | hthr
  · exact hnot
  · rw [Criteria.threshold_of_noGap hg ha] at hthr
    exact Sense.not_better_of_noWorse hthr

/-- Two schedules that are through and left nothing out have the same best value. -/
theorem Invariant.bestValue_eq (hr : r.Invariant search S) (hs : s.Invariant search S)
    (hfr : r.FoundIn S) (hfs : s.FoundIn S) (hg : search.settings.relativeGap = .ofRat 0)
    (ha : search.settings.absoluteGap = .ofRat 0) (hrc : r.complete = true)
    (hsc : s.complete = true) (hrp : r.pending = []) (hsp : s.pending = []) :
    r.state.board.bestValue = s.state.board.bestValue := by
  -- a point that one schedule found cannot have escaped the other
  have hnone : ∀ {r s : Run Exact}, r.Invariant search S → s.FoundIn S → r.complete = true →
      r.pending = [] → r.state.board.best = none → s.state.board.best = none := by
    intro r s hr hfs hrc hrp hbest
    cases hs : s.state.board.best with
    | none => rfl
    | some best =>
      obtain ⟨_, hsome, -⟩ := hr.closes_of_pending_eq_nil hrc hrp (hfs best hs)
      rw [hbest] at hsome
      cases hsome
  unfold Scoreboard.bestValue
  cases hbr : r.state.board.best with
  | none => rw [hnone hr hfs hrc hrp hbr]
  | some best =>
    cases hbs : s.state.board.best with
    | none =>
      rw [hnone hs hfr hsc hsp hbs] at hbr
      cases hbr
    | some best' =>
      -- each incumbent is a point of `S`, so neither beats the other
      obtain ⟨_, hr', hmem, hobj, hvalid, hnot⟩ :=
        hr.optimum hfr hg ha hrc hrp (hfs best' hbs)
      obtain ⟨_, hs', hmem', hobj', hvalid', hnot'⟩ :=
        hs.optimum hfs hg ha hsc hsp (hfr best hbr)
      rw [hbr] at hr'
      rw [hbs] at hs'
      obtain rfl := Option.some.inj hr'
      obtain rfl := Option.some.inj hs'
      rw [← hobj'] at hnot
      rw [← hobj] at hnot'
      have heq := Sense.noWorse_antisymm (Sense.noWorse_of_not_better hvalid hvalid' hnot)
        (Sense.noWorse_of_not_better hvalid' hvalid hnot')
      rw [Option.map_some, Option.map_some, heq]

end Run

/-- Whatever pending node is visited at each step, the schedules that go through and leave nothing
out have an incumbent or none alike, and of the same value. It is the value that the depth-first
search reports if it leaves nothing out. -/
theorem schedules_agree {search : Search Exact} {S : Set (Array Exact)} {start r s : Run Exact}
    (hcheck : search.settings.check = .ok ()) (hwhole : ∀ p ∈ S, search.problem.Whole p)
    (hsound : search.relaxation.Sound search.problem S) (hleaves : search.LeavesIn S)
    (hg : search.settings.relativeGap = .ofRat 0) (ha : search.settings.absoluteGap = .ofRat 0)
    (hstart : search.start none = .ok start)
    (hr : Run.Reaches search start r) (hrp : r.pending = []) (hrc : r.complete = true)
    (hs : Run.Reaches search start s) (hsp : s.pending = []) (hsc : s.complete = true) :
    (r.state.board.best.isSome = s.state.board.best.isSome ∧
      r.state.board.bestValue = s.state.board.bestValue) ∧
    ∀ (clock : Nat → Nat) (report : Report Exact), search.solve none clock = .ok report →
      report.solution.status = .optimal ∨ report.solution.status = .infeasible →
      report.solution.status.hasSolution = r.state.board.best.isSome ∧
      report.solution.objective = r.state.board.bestValue.getD .nan := by
  have hgap := Settings.relativeGap_le_one hg
  have hagree : ∀ {s : Run Exact}, Run.Reaches search start s → s.pending = [] →
      s.complete = true → r.state.board.bestValue = s.state.board.bestValue := fun hs hsp hsc =>
    (Run.invariant_of_start hcheck hgap hsound hwhole hstart hr).bestValue_eq
      (Run.invariant_of_start hcheck hgap hsound hwhole hstart hs)
      (Run.foundIn_of_start hleaves hstart hr) (Run.foundIn_of_start hleaves hstart hs) hg ha hrc
      hsc hrp hsp
  have hisSome : ∀ s : Run Exact, s.state.board.best.isSome = s.state.board.bestValue.isSome :=
    fun s => Option.isSome_map.symm
  refine ⟨⟨?_, hagree hs hsp hsc⟩, fun clock report hsolve hstatus => ?_⟩
  · rw [hisSome, hisSome, hagree hs hsp hsc]
  -- the depth-first search is one of the schedules
  · obtain ⟨-, start', t, hstart', hrun, rfl⟩ := Search.solve_eq_ok hsolve
    rw [hstart] at hstart'
    obtain rfl := Except.ok.inj hstart'
    obtain ⟨ht, htp⟩ := reaches_of_run hrun
    have htc := Run.complete_of_status hstatus
    rw [hisSome, hagree ht htp htc, ← hisSome]
    exact ⟨Status.hasSolution_ofOutcome _ _, rfl⟩

/-- The sample program searched from either child of the root. -/
theorem schedules_agree_sample : ∃ start r s, let search := OneRow.Sample.search .gapless
    search.start none = .ok start ∧ start.follow search [0, 0, 0] = .ok r ∧
    start.follow search [0, 1, 0] = .ok s ∧
    r.state.board.bestValue = s.state.board.bestValue := by
  let search := OneRow.Sample.search .gapless
  obtain ⟨start, hstart⟩ := Search.start_ok search
  have hends : ∀ positions ∈ [[0, 0, 0], [0, 1, 0]],
      (search.start none >>= (·.follow search positions)).toOption.map
        (fun r => (r.pending.length, r.complete)) = some (0, true) := by decide +kernel
  have hfollow : ∀ positions ∈ [[0, 0, 0], [0, 1, 0]], ∃ r, start.follow search positions = .ok r ∧
      r.pending = [] ∧ r.complete = true := by
    intro positions hmem
    obtain ⟨r, hboth, hend⟩ := exists_of_toOption_map (hends positions hmem)
    obtain ⟨start', hstart', hr⟩ := bind_eq_ok.mp hboth
    obtain rfl := Except.ok.inj (hstart.symm.trans hstart')
    obtain ⟨hlength, hcomplete⟩ := Prod.mk.inj hend
    exact ⟨r, hr, List.eq_nil_of_length_eq_zero hlength, hcomplete⟩
  obtain ⟨r, hr, hrp, hrc⟩ := hfollow [0, 0, 0] (by simp)
  obtain ⟨s, hs, hsp, hsc⟩ := hfollow [0, 1, 0] (by simp)
  have hagree := schedules_agree Settings.check_gapless (fun _ => OneRow.Sample.whole_of_mem)
    OneRow.Sample.sound OneRow.Sample.leavesIn rfl Settings.absoluteGap_gapless hstart
    (Run.reaches_of_follow hr) hrp hrc (Run.reaches_of_follow hs) hsp hsc
  exact ⟨start, r, s, hstart, hr, hs, hagree.1.2⟩

end BranchBound
