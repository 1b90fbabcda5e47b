import BranchBound.Proofs.Completion
import BranchBound.Proofs.OneRow.WholePrograms
import Mathlib.Data.List.Sort

/-!
# Solving whole programs

The search with the one-row relaxation does what going through all whole points would do: it finds a
best one, or says that there is none (`solve_whole`). It has to end for that, within twice as many
iterations as there are vectors of whole numbers within the bounds.
-/

namespace BranchBound.OneRow

open Exact Finset

namespace Whole

variable {p : Program Exact} {r : OneRow Exact} {n : Nat} {c a : Nat → ℚ} {c₀ b : ℚ}
  {lo hi : Nat → ℤ}

/-- Every variable of the program is among the whole ones, in order. -/
theorem integers_eq (h : Whole p r n c a c₀ b lo hi) : p.integers = Array.range n := by
  have hlist : p.integers.toList = List.range n := by
    refine h.wellFormed.ascending.eq_of_mem_iff List.pairwise_lt_range fun j => ?_
    rw [Array.mem_toList_iff, List.mem_range]
    constructor
    · intro hj
      rw [← h.size]
      exact h.wellFormed.known j hj
    · exact h.integers j
  exact Array.toList_inj.mp (by rw [hlist, Array.toList_range])

theorem size_integers (h : Whole p r n c a c₀ b lo hi) : p.integers.size = n := by
  rw [h.integers_eq, Array.size_range]

theorem getElem_integers (h : Whole p r n c a c₀ b lo hi) {i : Nat} (hlt : i < p.integers.size) :
    p.integers[i] = i := by
  have hget : p.integers[i]? = some i := by
    rw [h.integers_eq, Array.getElem?_range, if_pos (h.size_integers ▸ hlt)]
  rw [Array.getElem?_eq_getElem hlt] at hget
  exact Option.some.inj hget

/-- The relaxation keeps to the bounds of the program. -/
theorem confined (h : Whole p r n c a c₀ b lo hi) :
    r.relaxation.Confined p.problem (fun i => lo i) fun i => hi i := by
  intro call node cutoff answer hover hanswer hfeasible
  obtain ⟨x, hx, hpoint⟩ := h.exists_optimum hover hanswer hfeasible
  rw [hpoint]
  refine ⟨hx.contains, fun i q hq => ?_⟩
  have hlt : i.val < n := h.size_integers ▸ i.isLt
  replace hq : (vector n x)[p.integers[i.val]]? = some (.ofRat q) := hq
  rw [h.getElem_integers, vector, getElem?_tabulate_of_lt _ hlt, Option.some.injEq,
    Exact.ofRat.injEq] at hq
  rw [← hq]
  exact hx.inBounds i hlt

/-- The root leaves the vectors of whole numbers within the bounds. -/
theorem room_root (h : Whole p r n c a c₀ b lo hi) (settings : Settings Exact) :
    ((Search.root ⟨p.problem, r.relaxation, settings⟩).room (n := p.integers.size)
      (fun i => lo i) (fun i => hi i) : ℤ) = ∏ j ∈ range n, (hi j - lo j + 1) := by
  have hle : ∀ i : Fin p.integers.size, lo i ≤ hi i := fun i => h.le i (h.size_integers ▸ i.isLt)
  calc ((Search.root ⟨p.problem, r.relaxation, settings⟩).room (n := p.integers.size)
      (fun i => lo i) (fun i => hi i) : ℤ)
    _ = ∏ i : Fin p.integers.size, (hi i - lo i + 1) := BranchBound.room_root hle
    _ = ∏ j ∈ range p.integers.size, (hi j - lo j + 1) :=
      Fin.prod_univ_eq_prod_range (fun j => hi j - lo j + 1) p.integers.size
    _ = ∏ j ∈ range n, (hi j - lo j + 1) := by rw [h.size_integers]

/-- The relaxation answers for every node, and its points can be used. -/
theorem served (h : Whole p r n c a c₀ b lo hi) (settings : Settings Exact) :
    Search.Served ⟨p.problem, r.relaxation, settings⟩ where
  answers := by
    intro call node cutoff hover
    show ∃ answer, r.answer node cutoff = .ok answer
    rcases h.answer_cases hover with ⟨hinfeasible, -⟩ | ⟨x, -, hcases⟩
    · exact ⟨_, hinfeasible cutoff⟩
    · rw [hcases]
      split
      · exact ⟨_, rfl⟩
      · exact ⟨_, rfl⟩
  usable := by
    intro call node cutoff answer hover hanswer hfeasible
    obtain ⟨x, hx, hpoint⟩ := h.exists_optimum hover hanswer hfeasible
    have haccepts := h.accepts_of_le hx.inBounds hx.row_le
    unfold Visit.isUsable
    rw [hpoint, Bool.and_eq_true, Bool.and_eq_true, Bool.or_eq_true]
    exact ⟨⟨h.size_vector x, all_isFinite_vector⟩, Or.inr haccepts⟩

theorem roomy {settings : Settings Exact} (h : Whole p r n c a c₀ b lo hi)
    (htime : settings.timeLimit = none)
    (hmax : 2 * ∏ j ∈ range n, (hi j - lo j + 1) ≤ (settings.maxIterations : ℤ))
    (hceiling : 2 * ∏ j ∈ range n, (hi j - lo j + 1) ≤ (settings.iterationCeiling : ℤ)) :
    Search.Roomy ⟨p.problem, r.relaxation, settings⟩ (fun i => lo i) fun i => hi i := by
  rw [← h.room_root settings] at hmax hceiling
  exact ⟨htime, by exact_mod_cast hmax, by exact_mod_cast hceiling⟩

/-- The objective of a whole point is valid. -/
theorem objective_valid (h : Whole p r n c a c₀ b lo hi) {x : Array Exact}
    (hx : x ∈ p.wholePoints) : p.objective x ≠ .nan := by
  obtain ⟨z, rfl, -, -⟩ := h.mem_wholePoints_iff.mp hx
  rw [h.numbers.objective_eq]
  exact fun hnan => nomatch hnan

end Whole

/-- The search solves every whole program with at most one row, if its gaps are zero, its
tolerances are small against the row, and it has two iterations for every vector of whole numbers
within the bounds. It reports a best whole point, or that there is none. -/
theorem solve_whole {sense : Sense} {costs : Array Exact} {steps : List (Program.Step Exact)}
    {p : Program Exact} {r : OneRow Exact} {lo hi : Nat → ℤ} {settings : Settings Exact}
    (hbuild : Program.build sense costs steps = .ok p) (hrow : ofProgram p = .ok r)
    (hwhole : p.IsWhole lo hi) (hcheck : settings.check = .ok ())
    (hg : settings.relativeGap = .ofRat 0) (ha : settings.absoluteGap = .ofRat 0)
    (hsmall : ∀ row ∈ p.rows, ∀ v ∈ row.coefs, Scalar.abs v * settings.integrality < 1.0)
    (hrhs : ∀ row ∈ p.rows, boundTolerance * (1.0 + Scalar.abs row.rhs) < 1.0)
    (htime : settings.timeLimit = none)
    (hmax : 2 * ∏ j ∈ range p.size, (hi j - lo j + 1) ≤ (settings.maxIterations : ℤ))
    (hceiling : 2 * ∏ j ∈ range p.size, (hi j - lo j + 1) ≤ (settings.iterationCeiling : ℤ))
    (clock : Nat → Nat) :
    ∃ report, Search.solve ⟨p.problem, r.relaxation, settings⟩ none clock = .ok report ∧
      ((∃ x, x ∈ p.wholePoints) → report.solution.status = .optimal ∧
        report.solution.point ∈ p.wholePoints ∧
        report.solution.objective = p.objective report.solution.point ∧
        ∀ x ∈ p.wholePoints, p.sense.noWorse report.solution.objective (p.objective x)) ∧
      ((∀ x, x ∉ p.wholePoints) → report.solution.status = .infeasible) := by
  obtain ⟨c, a, c₀, b, h⟩ := exists_whole (Program.of_build hbuild).wellFormed hrow hwhole
  obtain ⟨report, hsolve, hsome, hnone⟩ := @solve_thorough ⟨p.problem, r.relaxation, settings⟩
    p.wholePoints (fun i => lo i) (fun i => hi i) hcheck hg ha h.wellFormed.known
    (fun i => h.le i (h.size_integers ▸ i.isLt))
    (h.served settings) (h.roomy htime hmax hceiling) h.confined h.sound
    (h.leavesIn hcheck hsmall hrhs) (fun _ => h.whole_of_mem) clock
  refine ⟨report, hsolve, fun hex => ?_, hnone⟩
  obtain ⟨hstatus, hpoint, hobjective, hvalid, hbest⟩ := hsome hex
  exact ⟨hstatus, hpoint, hobjective, fun x hx =>
    Sense.noWorse_of_not_better hvalid (h.objective_valid hx) (hbest x hx)⟩

/-- The greatest `x - y` of the sample program is found. -/
theorem solve_whole_sample : ∃ report,
    (Sample.search .gapless).solve none (fun _ => 0) = .ok report ∧
    report.solution.status = .optimal ∧ ∀ x ∈ Sample.program.wholePoints,
      Sense.maximise.noWorse report.solution.objective (Sample.program.objective x) := by
  obtain ⟨report, hsolve, hsome, -⟩ := solve_whole Sample.build_eq Sample.ofProgram_eq
    Sample.isWhole Settings.check_gapless rfl Settings.absoluteGap_gapless
    Sample.small Sample.small_rhs rfl (by decide +kernel) (by decide +kernel) fun _ => 0
  obtain ⟨hstatus, -, -, hbest⟩ := hsome ⟨_, Sample.mem_wholePoints⟩
  exact ⟨report, hsolve, hstatus, hbest⟩

end BranchBound.OneRow
