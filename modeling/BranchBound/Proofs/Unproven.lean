import BranchBound.Proofs.Coverage
import BranchBound.Proofs.OneRow.Answers

/-!
# Unproven points

A relaxation may answer with a point that it does not show to be best. What its verdicts then mean
is `Answer.Honours`, over a region of points that need not be whole: an optimal point bounds the
objective over the region within the node's box, a feasible one only lies there.

The search takes the objective of either as a bound: it closes the node at a whole point, prunes by
the point's value, and hands it to the children. So an optimal status vouches for a point of the
region unless a feasible answer was given for a box with that point, and was worse
(`optimal_or_worse_feasible`). The least point of a segment is missed in this way
(`Relaxation.Segment`).
-/

namespace BranchBound

open Exact

/-- What the verdict of an answer says about a region: an optimal point is one of the region in the
node's box, and no such point is better; a feasible one is a point of the region in the node's box;
and infeasible means that the cutoff excludes all of these. No other verdict is given. -/
def Answer.Honours (answer : Answer Exact) (problem : Problem Exact) (region : Set (Array Exact))
    (node : Node Exact) (cutoff : Option (Cutoff Exact)) : Prop :=
  match answer.verdict with
  | .optimal => answer.point ∈ region ∧ node.Contains answer.point ∧
      ∀ x ∈ region, node.Contains x → problem.objective x ≠ .nan →
        problem.sense.noWorse (problem.objective answer.point) (problem.objective x)
  | .feasible => answer.point ∈ region ∧ node.Contains answer.point
  | .infeasible => ∀ x ∈ region, node.Contains x →
      ∃ limit, cutoff = some limit ∧ limit.excludes (problem.objective x) = true
  | .failed => False
  | .unexplored => False

/-- Whether all answers of a relaxation mean what they say. -/
def Relaxation.Honours (relaxation : Relaxation Exact) (problem : Problem Exact)
    (region : Set (Array Exact)) : Prop :=
  ∀ ⦃call : Nat⦄ ⦃node : Node Exact⦄ ⦃cutoff : Option (Cutoff Exact)⦄ ⦃answer : Answer Exact⦄,
    node.IsOver problem → (∀ limit, cutoff = some limit → limit.Suits problem.sense) →
    relaxation call node cutoff = .ok answer → answer.Honours problem region node cutoff

section

variable {search : Search Exact} {region : Set (Array Exact)} {p : Array Exact}

/-- A call that gave a feasible point for a box with another one, and not as good a point. -/
structure Call.Misses (call : Call Exact) (problem : Problem Exact) (p : Array Exact) : Prop where
  feasible : call.answer.verdict = .feasible
  contains : call.node.Contains p
  worse : ¬problem.sense.noWorse (problem.objective call.answer.point) (problem.objective p)

namespace Answer.Honours

variable {problem : Problem Exact} {node : Node Exact} {cutoff : Option (Cutoff Exact)}
  {answer : Answer Exact}

theorem contains_point (h : answer.Honours problem region node cutoff)
    (hfeasible : answer.verdict.isFeasible = true) : node.Contains answer.point := by
  unfold Honours at h
  cases hverdict : answer.verdict with
  | optimal =>
    rw [hverdict] at h
    exact h.2.1
  | feasible =>
    rw [hverdict] at h
    exact h.2
  | infeasible | failed | unexplored =>
    rw [hverdict] at hfeasible
    cases hfeasible

/-- The point of an answer bounds every point of the node, or it is an unproven one that is
worse. -/
theorem bounds_or_misses (h : answer.Honours problem region node cutoff)
    (hfeasible : answer.verdict.isFeasible = true) (hp : p ∈ region) (hin : node.Contains p)
    (hvalid : problem.objective p ≠ .nan) :
    Call.Misses ⟨node, cutoff, answer⟩ problem p ∨
      problem.sense.noWorse (problem.objective answer.point) (problem.objective p) := by
  by_cases hle : problem.sense.noWorse (problem.objective answer.point) (problem.objective p)
  · exact Or.inr hle
  · unfold Honours at h
    cases hverdict : answer.verdict with
    | optimal =>
      rw [hverdict] at h
      exact Or.inr (h.2.2 p hp hin hvalid)
    | feasible => exact Or.inl ⟨hverdict, hin, hle⟩
    | infeasible | failed | unexplored =>
      rw [hverdict] at hfeasible
      cases hfeasible

theorem exists_excludes (h : answer.Honours problem region node cutoff)
    (hnone : answer.verdict.isFeasible = false) (hp : p ∈ region) (hin : node.Contains p) :
    ∃ limit, cutoff = some limit ∧ limit.excludes (problem.objective p) = true := by
  unfold Honours at h
  cases hverdict : answer.verdict with
  | infeasible =>
    rw [hverdict] at h
    exact h p hp hin
  | failed | unexplored =>
    rw [hverdict] at h
    exact h.elim
  | optimal | feasible =>
    rw [hverdict] at hnone
    cases hnone

end Answer.Honours

/-- A search loses a point to calls only that miss it. -/
theorem Relaxation.Honours.tracks (h : search.relaxation.Honours search.problem region)
    (hcheck : search.settings.check = .ok ()) (hgap : search.settings.relativeGap ≤ .ofRat 1)
    (hp : p ∈ region) (hvalid : search.problem.objective p ≠ .nan) :
    search.Tracks p (search.problem.sense.better (search.problem.objective p) · = false)
      (search.criteria.Closes · (search.problem.objective p)) (·.Misses search.problem p) where
  toSettling := Search.settling_closes hcheck hgap _
  none hover hin hanswer hnone := by
    obtain ⟨limit, hlimit, hexcludes⟩ :=
      (h hover (fun _ => Criteria.suits_cutoff) hanswer).exists_excludes hnone hp hin
    exact Or.inr (closes_of_excludes hlimit hexcludes)
  point hover hsuits hin hanswer hfeasible _ := by
    have hhonours := h hover hsuits hanswer
    refine (hhonours.bounds_or_misses hfeasible hp hin hvalid).imp id fun hle => ?_
    exact ⟨(hhonours.contains_point hfeasible).allows, (Sense.valid_of_noWorse hle).1,
      Sense.not_better_of_noWorse hle⟩
  elsewhere hover hsuits _ hanswer hfeasible _ :=
    Or.inl ((h hover hsuits hanswer).contains_point hfeasible).allows

/-- If a search is optimal, no whole point of the region beats its objective value by more than the
gap of that value, but for those that a feasible answer missed. -/
theorem optimal_or_worse_feasible (h : search.relaxation.Honours search.problem region)
    (hgap : search.settings.relativeGap ≤ .ofRat 1) {warmStart : Option (Array Exact)}
    {clock : Nat → Nat} {report : Report Exact} (hsolve : search.solve warmStart clock = .ok report)
    (hoptimal : report.solution.status = .optimal) (hp : p ∈ region)
    (hwhole : search.problem.Whole p) :
    search.problem.sense.better (search.problem.objective p)
        (search.criteria.threshold report.solution.objective) = false ∨
      ∃ call ∈ callsOf report.journal, call.Misses search.problem p := by
  by_cases hnan : search.problem.objective p = .nan
  · rw [hnan]
    exact Or.inl (Sense.not_nan_better _)
  · obtain ⟨hcheck, r, s, hstart, hrun, rfl⟩ := Search.solve_eq_ok hsolve
    obtain ⟨hreaches, hpending⟩ := reaches_of_run hrun
    obtain ⟨hcomplete, -⟩ := Run.status_finish_eq_optimal_iff.mp hoptimal
    rw [Run.calls_finish]
    rcases Run.lost_or_settled (h.tracks hcheck hgap hp hnan) hcheck hwhole hstart hreaches
      hcomplete hpending with hlost | ⟨best, hbest, hcloses⟩
    · exact Or.inr hlost
    · obtain ⟨⟨g, hg, hg0⟩, ⟨a, ha, -⟩, -, -⟩ := Settings.of_check hcheck
      have hcoherent : s.Coherent search :=
        Run.invariant_of_reaches (fun hstep hr => hr.of_advances hstep) hreaches
          (Run.coherent_start hstart)
      have hvalid := Exact.isNaN_eq_false_iff.mp (hcoherent.best best hbest).1
      rw [(Run.solution_finish _ hbest).2]
      exact Or.inl (Criteria.not_better_threshold hg ha hg0 hvalid hcloses)

end

/-! ## The greatest point of a box -/

namespace Relaxation

/-- Answers with the upper ends of the box, which need not be best. -/
def upperEnds (p : Program Exact) : Relaxation Exact := fun _ node _ => do
  let (lower, upper) ← node.tighten p.lower p.upper
  if (lower.zip upper).any fun (l, u) => decide (u < l) then return .infeasible
  return .ofVerdict .feasible upper (p.objective upper)

/-- If a program has no rows and finite bounds, the upper ends of a box are feasible. -/
theorem honours_upperEnds {p : Program Exact} (hp : p.WellFormed) (hrows : p.rows = #[])
    {l u : Nat → ℚ} (hlower : p.lower = vector p.size l) (hupper : p.upper = vector p.size u) :
    (upperEnds p).Honours p.problem p.region := by
  intro call node cutoff answer hover _ hanswer
  have hvars : ∀ var ∈ node.vars, var < p.size := by
    rw [hover.1]
    exact hp.known
  obtain ⟨l', u', htighten, hl', hu', hwithin⟩ := Node.tighten_tabulate
    (l := fun j => .ofRat (l j)) (u := fun j => .ofRat (u j)) hvars
    (fun _ hnan => nomatch hnan) fun _ hnan => nomatch hnan
  have hrational : ∀ j, ∃ q : ℚ, u' j = .ofRat q := fun j =>
    (hu' j).elim (fun h => ⟨u j, h⟩) fun ⟨k, hk⟩ => ⟨k, hk⟩
  choose top htop using hrational
  obtain rfl : u' = fun j => .ofRat (top j) := funext htop
  have hregion : ∀ z : Nat → ℚ, vector p.size z ∈ p.region ∧ node.Contains (vector p.size z) ↔
      OneRow.InBounds p.size l' (fun j => .ofRat (top j)) z := by
    intro z
    rw [Program.vector_mem_region_iff hlower hupper, hrows]
    refine Iff.trans ?_ (hwithin fun j => .ofRat (z j)).symm
    exact and_congr (and_iff_left fun row hrow => absurd hrow (Array.not_mem_empty _)) Iff.rfl
  unfold upperEnds at hanswer
  rw [hlower, hupper] at hanswer
  simp only [vector, htighten, bind, Except.bind, pure, Except.pure, zip_tabulate] at hanswer
  split at hanswer
  · rename_i hcrossed
    obtain ⟨j, hj, hlt⟩ := any_tabulate.mp hcrossed
    rw [← Except.ok.inj hanswer]
    intro x hx hin
    obtain ⟨z, rfl⟩ := Program.exists_of_mem_region hx
    obtain ⟨hlow, hhigh⟩ := (hregion z).mp ⟨hx, hin⟩ j hj
    exact absurd (of_decide_eq_true hlt) (Exact.not_lt_of_le (Exact.le_trans hlow hhigh))
  · rename_i hcrossed
    rw [← Except.ok.inj hanswer]
    refine (hregion top).mpr fun j hj => ⟨?_, le_refl_of_valid (by simp)⟩
    refine Exact.le_of_not_lt (hl'.valid (fun _ hnan => nomatch hnan) j) (by simp) fun hlt => ?_
    exact hcrossed (any_tabulate.mpr ⟨j, hj, decide_eq_true hlt⟩)

namespace Segment

/-- The least whole number from zero to one. -/
def program : Program Exact := .line (.ofRat 1) (.ofRat 0) (.ofRat 1)

def search : Search Exact where
  problem := program.problem
  relaxation := upperEnds program
  settings := .standard

theorem honours : (upperEnds program).Honours program.problem program.region := by
  have hbuild : Program.build .minimise #[.ofRat 1] [.bounds 0 (.ofRat 0) (.ofRat 1), .integer 0] =
      .ok program := Program.build_line (.ofRat 1) (by simp) (by simp)
  exact honours_upperEnds (Program.of_build hbuild).wellFormed rfl (l := fun _ => 0)
    (u := fun _ => 1) (Program.vector_line 0).symm (Program.vector_line 1).symm

theorem zero_mem_region : #[.ofRat 0] ∈ program.region :=
  Program.mem_region_line (by simp) (by simp)

/-- The search takes one for optimal. -/
theorem exists_report : ∃ report, search.solve none (fun _ => 0) = .ok report ∧
    report.solution.status = .optimal ∧ report.solution.objective = .ofRat 1 := by
  have hrun : (search.solve none (fun _ => 0)).toOption.map
      (fun report => (report.solution.status, report.solution.objective)) =
      some (.optimal, .ofRat 1) := by decide +kernel
  obtain ⟨report, hsolve, hfound⟩ := exists_of_toOption_map hrun
  exact ⟨report, hsolve, Prod.mk.inj hfound⟩

/-- Although zero is less than one by more than the gap of one. -/
theorem optimal_beaten_on_segment : ∃ report,
    (upperEnds program).Honours program.problem program.region ∧
    search.solve none (fun _ => 0) = .ok report ∧ report.solution.status = .optimal ∧
    ∃ x ∈ program.region, program.problem.Whole x ∧
      program.sense.better (program.objective x)
        (search.criteria.threshold report.solution.objective) = true := by
  obtain ⟨report, hsolve, hoptimal, hobjective⟩ := exists_report
  refine ⟨report, honours, hsolve, hoptimal, _, zero_mem_region, Program.whole_line 0, ?_⟩
  rw [hobjective]
  decide +kernel

/-- The search was given a feasible answer for a box with zero in it. -/
theorem optimal_or_worse_feasible_on_segment : ∃ report,
    search.solve none (fun _ => 0) = .ok report ∧ report.solution.status = .optimal ∧
    ∃ call ∈ callsOf report.journal, call.Misses program.problem #[.ofRat 0] := by
  obtain ⟨report, hsolve, hoptimal, hobjective⟩ := exists_report
  refine ⟨report, hsolve, hoptimal, ?_⟩
  have hhonours : search.relaxation.Honours search.problem program.region := honours
  have hgap : search.settings.relativeGap ≤ .ofRat 1 := by decide +kernel
  rcases optimal_or_worse_feasible hhonours hgap hsolve hoptimal zero_mem_region
    (Program.whole_line 0) with hnot | hmissed
  · rw [hobjective] at hnot
    exact absurd hnot (by decide +kernel)
  · exact hmissed

end Segment

end Relaxation

end BranchBound
