import BranchBound.Proofs.Coverage
import BranchBound.Proofs.OneRow.WholePrograms

/-!
# The verdict of a search

What the status of a search says about the points that its relaxation is sound for, in exact
arithmetic. An optimal search has an incumbent that no point beats by more than the gap of that
incumbent, though nodes were pruned on account of worse ones. An infeasible search had no point to
find (`verdict_sound`).
-/

namespace BranchBound

/-! ## The verdict -/

/-- The verdict of a search is right about every set of whole points that its relaxation is sound
for, whatever its limits and its warm start. If it is optimal, no point beats its objective value by
more than the gap of that value; if it is infeasible, there is no point. -/
theorem verdict_sound {search : Search Exact} {S : Set (Array Exact)}
    (hwhole : ∀ p ∈ S, search.problem.Whole p)
    (hsound : search.relaxation.Sound search.problem S)
    (hgap : search.settings.relativeGap ≤ .ofRat 1) {warmStart : Option (Array Exact)}
    {clock : Nat → Nat} {report : Report Exact} (h : search.solve warmStart clock = .ok report) :
    (report.solution.status = .optimal → ∀ p ∈ S,
      search.problem.sense.better (search.problem.objective p)
        (search.criteria.threshold report.solution.objective) = false ∧
      (∀ value best : ℚ, search.problem.objective p = .ofRat value →
        report.solution.objective = .ofRat best →
        search.problem.sense.noWorse (search.criteria.threshold (.ofRat best)) (.ofRat value))) ∧
    (report.solution.status = .infeasible → ∀ p, p ∉ S) := by
  obtain ⟨hcheck, r, s, hstart, hrun, rfl⟩ := Search.solve_eq_ok h
  obtain ⟨hreaches, hpending⟩ := reaches_of_run hrun
  have hs := Run.invariant_of_start hcheck hgap hsound hwhole hstart hreaches
  obtain ⟨⟨g, hg, hg0⟩, ⟨a, ha, -⟩, -, -⟩ := Settings.of_check hcheck
  constructor
  · intro hoptimal p hp
    obtain ⟨hcomplete, -⟩ := Run.status_finish_eq_optimal_iff.mp hoptimal
    obtain ⟨best, hbest, hcloses⟩ := hs.closes_of_pending_eq_nil hcomplete hpending hp
    have hobjective : (s.finish (clock s.visits)).solution.objective = best.objective :=
      (Run.solution_finish _ hbest).2
    have hvalid := Exact.isNaN_eq_false_iff.mp (hs.coherent.best best hbest).1
    have hnot : search.problem.sense.better (search.problem.objective p)
        (search.criteria.threshold best.objective) = false :=
      Criteria.not_better_threshold hg ha hg0 hvalid hcloses
    rw [hobjective]
    refine ⟨hnot, fun value b hvalue hb => ?_⟩
    -- rationals are comparable, so a threshold that is not beaten is no worse
    rw [hvalue, hb] at hnot
    refine Sense.noWorse_of_not_better ?_ (by simp) hnot
    unfold Criteria.threshold
    rw [Criteria.gap_ofRat hg ha]
    cases search.criteria.sense <;> simp
  · intro hinfeasible p hp
    obtain ⟨hcomplete, hnone⟩ := Run.status_finish_eq_infeasible_iff.mp hinfeasible
    -- a point could only have been closed by an incumbent
    obtain ⟨best, hbest, -⟩ := hs.closes_of_pending_eq_nil hcomplete hpending hp
    rw [hnone] at hbest
    cases hbest

/-- The verdict on a small program, within a gap of a hundredth of a percent. -/
theorem verdict_sound_sample : ∃ report,
    (OneRow.Sample.search .standard).solve none (fun _ => 0) = .ok report ∧
    report.solution.status = .optimal ∧ report.solution.objective = .ofRat 1 ∧
    ∀ p ∈ OneRow.Sample.program.wholePoints, Sense.maximise.better
      (OneRow.Sample.program.objective p)
      ((OneRow.Sample.search .standard).criteria.threshold (.ofRat 1)) = false := by
  let search := OneRow.Sample.search .standard
  have hrun : (search.solve none (fun _ => 0)).toOption.map
      (fun report => (report.solution.status, report.solution.objective)) =
      some (.optimal, .ofRat 1) := by decide +kernel
  cases h : search.solve none (fun _ => 0) with
  | error e =>
    rw [h] at hrun
    cases hrun
  | ok report =>
    rw [h] at hrun
    obtain ⟨hstatus, hobjective⟩ := Prod.mk.inj (Option.some.inj hrun)
    have hgap : search.settings.relativeGap ≤ .ofRat 1 := by decide +kernel
    have hverdict := verdict_sound (fun _ => OneRow.Sample.whole_of_mem) OneRow.Sample.sound hgap h
    refine ⟨report, rfl, hstatus, hobjective, fun p hp => ?_⟩
    rw [← hobjective]
    exact (hverdict.1 hstatus p hp).1

end BranchBound
