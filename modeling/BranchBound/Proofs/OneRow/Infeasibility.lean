import BranchBound.Proofs.Following
import BranchBound.Proofs.OneRow.Answers
import BranchBound.Proofs.OneRow.Unbounded

/-!
# Infeasible programs

What it means that a search of a program with at most one row is infeasible, if bounds may be
infinite. A failed answer ends a node in the same way as an infeasible one, so the search may have
gone through the whole tree and passed over points of the program. But the relaxation fails only on
boxes over which the objective is unbounded (`answer_of_mem_region`): if there is a point, such a
box was answered with a failure, and has the point (`exists_failed_of_infeasible`).
-/

namespace BranchBound

open Exact Finset

/-- A call that failed for a box with a given point, over which the objective is unbounded. -/
structure Call.RunsOff (call : Call Exact) (p : Program Exact) (x : Array Exact) : Prop where
  failed : call.answer.verdict = .failed
  contains : call.node.Contains x
  unbounded : ∀ value : ℚ, ∃ y ∈ p.region, call.node.Contains y ∧
    p.sense.better (p.objective y) (.ofRat value) = true

namespace OneRow

variable {p : Program Exact} {r : OneRow Exact} {node : Node Exact} {x : Array Exact}

theorem not_add_tolerance_lt {l u : Exact} (h : l ≤ u) : ¬u + boundTolerance < l := by
  rw [boundTolerance_eq]
  intro hlt
  cases u with
  | ofRat q =>
    rw [ofRat_add] at hlt
    have hself := Exact.lt_of_lt_of_le hlt h
    rw [ofRat_lt] at hself
    linarith
  | posInf => exact not_posInf_lt _ hlt
  | negInf => exact Exact.lt_irrefl _ (Exact.lt_of_lt_of_le hlt h)
  | nan => exact not_le_nan _ h

/-- A program with a point has valid bounds. -/
theorem valid_of_mem_region (hp : p.WellFormed) (hx : x ∈ p.region) :
    (∀ v ∈ p.lower, v ≠ .nan) ∧ ∀ v ∈ p.upper, v ≠ .nan := by
  have hentry : ∀ {j : Nat}, j < p.size → ∃ l u v, p.lower[j]? = some l ∧ p.upper[j]? = some u ∧
      l ≤ v ∧ v ≤ u := by
    intro j hj
    have hl := Array.getElem?_eq_getElem (hp.size_lower.symm ▸ hj)
    have hu := Array.getElem?_eq_getElem (hp.size_upper.symm ▸ hj)
    have hv := Array.getElem?_eq_getElem (hx.1.symm ▸ hj)
    exact ⟨_, _, _, hl, hu, hx.2.2.1 j _ _ _ hl hu hv⟩
  constructor
  · intro v hv
    obtain ⟨j, hj⟩ := Array.mem_iff_getElem?.mp hv
    have hlt := (Array.getElem?_eq_some_iff.mp hj).1
    obtain ⟨l, u, w, hl, -, hle, -⟩ := hentry (hp.size_lower ▸ hlt)
    rw [hj] at hl
    rw [Option.some.inj hl]
    exact (valid_of_le hle).1
  · intro v hv
    obtain ⟨j, hj⟩ := Array.mem_iff_getElem?.mp hv
    have hlt := (Array.getElem?_eq_some_iff.mp hj).1
    obtain ⟨l, u, w, -, hu, -, hle⟩ := hentry (hp.size_upper ▸ hlt)
    rw [hj] at hu
    rw [Option.some.inj hu]
    exact (valid_of_le hle).2

/-- The tightened bounds of a node leave the points of the program that the node has. -/
theorem exists_tighten_of_mem_region {c a : Nat → ℚ} {c₀ b : ℚ} (hp : p.WellFormed)
    (hn : p.Numbers p.size c a c₀ b) (hover : node.IsOver p.problem) (hx : x ∈ p.region) :
    ∃ l u, node.tighten p.lower p.upper = .ok (tabulate p.size l, tabulate p.size u) ∧
      (∀ z : Nat → ℚ, InBounds p.size l u z → node.Contains (vector p.size z)) ∧
      ∀ z : Nat → ℚ, vector p.size z ∈ p.region ∧ node.Contains (vector p.size z) ↔
        InBounds p.size l u z ∧ ∑ j ∈ range p.size, a j * z j ≤ b := by
  obtain ⟨hvalidLower, hvalidUpper⟩ := valid_of_mem_region hp hx
  have hzero : ofRat 0 ≠ .nan := by simp
  obtain ⟨l, hlower, hl⟩ := exists_eq_tabulate_of (P := (· ≠ .nan)) hp.size_lower hzero hvalidLower
  obtain ⟨u, hupper, hu⟩ := exists_eq_tabulate_of (P := (· ≠ .nan)) hp.size_upper hzero hvalidUpper
  have hvars : ∀ var ∈ node.vars, var < p.size := by
    rw [hover.1]
    exact hp.known
  obtain ⟨l', u', htighten, -, -, hwithin⟩ := Node.tighten_tabulate hvars hl hu
  refine ⟨l', u', by rw [hlower, hupper, htighten],
    fun z hz => ((hwithin fun j => .ofRat (z j)).mp hz).2, fun z => ?_⟩
  rw [Program.vector_mem_region_iff hlower hupper, hn.rows_iff, and_right_comm]
  exact and_congr (hwithin fun j => .ofRat (z j)).symm Iff.rfl

/-- Over a node with a point of the program the relaxation runs off, or gives a point of the node's
box, or is cut off. -/
theorem answer_of_mem_region (hp : p.WellFormed) (hr : ofProgram p = .ok r)
    (hcosts : ∀ v ∈ p.costs, Scalar.isFinite v = true)
    (hconstant : Scalar.isFinite p.constant = true) (hover : node.IsOver p.problem)
    (hx : x ∈ p.region) (hin : node.Contains x) {cutoff : Option (Cutoff Exact)}
    {answer : Answer Exact} (hanswer : r.answer node cutoff = .ok answer) :
    Call.RunsOff ⟨node, cutoff, answer⟩ p x ∨
      (answer.verdict = .optimal ∧ node.Contains answer.point) ∨
      (answer.verdict = .infeasible ∧ ∃ limit, cutoff = some limit) := by
  obtain ⟨hrows, hprogram, -⟩ := ofProgram_eq_ok hr
  obtain ⟨c, a, c₀, b, hn⟩ := Program.exists_numbers hp hcosts hconstant hrows
  obtain ⟨l, u, htighten, hcontains, hregion⟩ := exists_tighten_of_mem_region hp hn hover hx
  obtain ⟨z, rfl⟩ := Program.exists_of_mem_region hx
  obtain ⟨hz, hrow⟩ := (hregion z).mp ⟨hx, hin⟩
  have huncrossed : ¬(tabulate p.size fun j => (l j, u j)).any
      (fun b => decide (b.2 + boundTolerance < b.1)) = true := by
    rw [any_tabulate]
    rintro ⟨j, hj, hcrossed⟩
    exact not_add_tolerance_lt (hz.le hj) (of_decide_eq_true hcrossed)
  rw [← hprogram] at htighten
  rw [answer_of_tighten htighten, hprogram, zip_tabulate, if_neg huncrossed] at hanswer
  rcases solveBox_of_inBounds (reads_of_ofProgram hn hr) hz hrow with
    ⟨hunbounded, g, hg⟩ | ⟨y, hsolved, hy⟩
  · rw [hunbounded] at hanswer
    obtain rfl := Except.ok.inj hanswer
    refine Or.inl ⟨rfl, hin, fun value => ?_⟩
    obtain ⟨m, hm⟩ := hn.exists_better_of_lt value
    obtain ⟨y, hy, hyrow, hlt⟩ := hg.exists_lt hz hrow m
    obtain ⟨hmem, hin'⟩ := (hregion y).mpr ⟨hy, hyrow⟩
    exact ⟨_, hmem, hin', hm y hlt⟩
  · rw [hsolved] at hanswer
    dsimp only at hanswer
    split at hanswer
    · rename_i hexcluded
      obtain ⟨limit, rfl, -⟩ := (Option.any_eq_true _ _).mp hexcluded
      rw [← Except.ok.inj hanswer]
      exact Or.inr (Or.inr ⟨rfl, limit, rfl⟩)
    · rw [← Except.ok.inj hanswer]
      exact Or.inr (Or.inl ⟨rfl, hcontains y hy⟩)

end OneRow

/-! ## Infeasible searches -/

section

variable {p : Program Exact} {r : OneRow Exact} {settings : Settings Exact} {x : Array Exact}

/-- A search of a program loses a point to calls only that run off; any incumbent settles it. -/
theorem OneRow.tracks (hp : p.WellFormed) (hr : ofProgram p = .ok r)
    (hcosts : ∀ v ∈ p.costs, Scalar.isFinite v = true)
    (hconstant : Scalar.isFinite p.constant = true) (hx : x ∈ p.region) :
    Search.Tracks ⟨p.problem, r.relaxation, settings⟩ x (fun _ => True) (fun _ => True)
      (·.RunsOff p x) where
  root := trivial
  replaced _ _ := trivial
  pruned _ _ := trivial
  offered _ _ _ := trivial
  none {_ _ best _} hover hin hanswer hnone := by
    rcases answer_of_mem_region hp hr hcosts hconstant hover hx hin hanswer with
      hfails | ⟨hoptimal, -⟩ | ⟨-, limit, hlimit⟩
    · exact Or.inl hfails
    · rw [hoptimal] at hnone
      cases hnone
    · cases best with
      | none => cases hlimit
      | some value => exact Or.inr ⟨value, rfl, trivial⟩
  point hover _ hin hanswer hfeasible husable := by
    rcases answer_of_mem_region hp hr hcosts hconstant hover hx hin hanswer with
      hfails | ⟨-, hcontains⟩ | ⟨hinfeasible, -⟩
    · exact Or.inl hfails
    · obtain ⟨q, hq⟩ := Program.exists_objective_eq hcosts hconstant
        (Visit.size_of_isUsable husable) (Visit.finite_of_isUsable husable)
      refine Or.inr ⟨hcontains.allows, ?_, trivial⟩
      show p.objective _ ≠ .nan
      rw [hq]
      exact fun hnan => nomatch hnan
    · rw [hinfeasible] at hfeasible
      cases hfeasible
  elsewhere _ _ _ _ _ _ := Or.inr trivial

/-- If a search of a program with at most one row is infeasible, then there is no point, or the
relaxation failed for a box with the point because the objective is unbounded over it. -/
theorem exists_failed_of_infeasible {sense : Sense} {costs : Array Exact}
    {steps : List (Program.Step Exact)} (hbuild : Program.build sense costs steps = .ok p)
    (hr : OneRow.ofProgram p = .ok r) (hcosts : ∀ v ∈ costs, Scalar.isFinite v = true)
    (hconstant : Scalar.isFinite p.constant = true) {warmStart : Option (Array Exact)}
    {clock : Nat → Nat} {report : Report Exact}
    (hsolve : Search.solve ⟨p.problem, r.relaxation, settings⟩ warmStart clock = .ok report)
    (hinfeasible : report.solution.status = .infeasible) (hx : x ∈ p.region)
    (hwhole : p.problem.Whole x) : ∃ call ∈ callsOf report.journal, call.RunsOff p x := by
  obtain ⟨hp, rfl, -⟩ := Program.of_build hbuild
  obtain ⟨hcheck, start, s, hstart, hrun, rfl⟩ := Search.solve_eq_ok hsolve
  obtain ⟨hreaches, hpending⟩ := reaches_of_run hrun
  obtain ⟨hcomplete, hnone⟩ := Run.status_finish_eq_infeasible_iff.mp hinfeasible
  rw [Run.calls_finish]
  rcases Run.lost_or_settled (OneRow.tracks hp hr hcosts hconstant hx) hcheck hwhole hstart hreaches
    hcomplete hpending with hlost | ⟨best, hbest, -⟩
  · exact hlost
  · rw [hnone] at hbest
    cases hbest

end

/-! ## The least `-x` for whole `x` from zero on -/

namespace OneRow.Ray

def program : Program Exact := .line (.ofRat (-1)) (.ofRat 0) .posInf

theorem build_eq : Program.build .minimise #[.ofRat (-1)]
    [.bounds 0 (.ofRat 0) .posInf, .integer 0] = .ok program :=
  Program.build_line _ (by simp) (by simp)

def oneRow : OneRow Exact where
  program := program
  costs := #[.ofRat (-1)]

theorem ofProgram_eq : ofProgram program = .ok oneRow := rfl

def search : Search Exact where
  problem := program.problem
  relaxation := oneRow.relaxation
  settings := .standard

theorem zero_mem_region : #[.ofRat 0] ∈ program.region :=
  Program.mem_region_line (by simp) (by simp)

theorem exists_report : ∃ report, search.solve none (fun _ => 0) = .ok report ∧
    report.solution.status = .infeasible := by
  have hrun : (search.solve none (fun _ => 0)).toOption.map
      (fun report => report.solution.status) = some .infeasible := by decide +kernel
  exact exists_of_toOption_map hrun

/-- The search is infeasible although zero is a point. -/
theorem infeasible_on_ray : ∃ p r report,
    Program.build .minimise #[.ofRat (-1)] [.bounds 0 (.ofRat 0) .posInf, .integer 0] = .ok p ∧
    ofProgram p = .ok r ∧ Scalar.isFinite p.constant = true ∧
    Search.solve ⟨p.problem, r.relaxation, .standard⟩ none (fun _ => 0) = .ok report ∧
    report.solution.status = .infeasible ∧ ∃ x ∈ p.region, p.problem.Whole x := by
  obtain ⟨report, hsolve, hinfeasible⟩ := exists_report
  exact ⟨program, oneRow, report, build_eq, ofProgram_eq, rfl, hsolve, hinfeasible, _,
    zero_mem_region, Program.whole_line 0⟩

/-- The relaxation failed for a box with zero in it. -/
theorem exists_failed_on_ray : ∃ report, search.solve none (fun _ => 0) = .ok report ∧
    report.solution.status = .infeasible ∧
    ∃ call ∈ callsOf report.journal, call.RunsOff program #[.ofRat 0] := by
  obtain ⟨report, hsolve, hinfeasible⟩ := exists_report
  refine ⟨report, hsolve, hinfeasible, ?_⟩
  exact exists_failed_of_infeasible build_eq ofProgram_eq (by simp) rfl hsolve hinfeasible
    zero_mem_region (Program.whole_line 0)

end OneRow.Ray

end BranchBound
