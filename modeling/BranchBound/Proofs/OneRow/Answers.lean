import BranchBound.Proofs.Bounding
import BranchBound.Proofs.Building
import BranchBound.Proofs.OneRow.Optimum
import BranchBound.Proofs.Tightening

/-!
# Answers for programs with one row

A program with at most one row and rational numbers is given by its costs, its row and its constant
(`Program.Numbers`). The relaxation answers for a node by solving over the node's box
(`answer_of_tighten`), with costs that are to be minimised whatever the sense of the program is
(`noWorse_objective_iff`).
-/

namespace BranchBound

open Exact Finset

/-! ## Programs of rationals -/

/-- The numbers of a program with at most one row. Without a row they are those of `0 ≤ 0`. -/
structure Program.Numbers (p : Program Exact) (n : Nat) (c a : Nat → ℚ) (c₀ b : ℚ) : Prop where
  costs : p.costs = vector n c
  constant : p.constant = .ofRat c₀
  row : p.rows = #[⟨vector n a, .ofRat b⟩] ∨ p.rows = #[] ∧ (∀ j < n, a j = 0) ∧ b = 0

/-- Costs that are to be minimised. -/
def Sense.signed (sense : Sense) (c : Nat → ℚ) : Nat → ℚ :=
  match sense with
  | .minimise => c
  | .maximise => fun j => -c j

/-- A vector of rationals is within bounds if each of its entries is. -/
theorem OneRow.inBounds_iff {n : Nat} {l u : Nat → Exact} {x : Nat → ℚ} :
    (∀ (j : Nat) (l' u' v : Exact), (tabulate n l)[j]? = some l' → (tabulate n u)[j]? = some u' →
      (vector n x)[j]? = some v → l' ≤ v ∧ v ≤ u') ↔ InBounds n l u x := by
  constructor
  · intro h j hj
    exact h j _ _ _ (getElem?_tabulate_of_lt l hj) (getElem?_tabulate_of_lt u hj)
      (getElem?_tabulate_of_lt _ hj)
  · intro h j l' u' v hl hu hv
    have hj : j < n := by
      have hlt := (Array.getElem?_eq_some_iff.mp hv).1
      rwa [vector, size_tabulate] at hlt
    rw [getElem?_tabulate_of_lt _ hj] at hl hu
    rw [vector, getElem?_tabulate_of_lt _ hj] at hv
    rw [← Option.some.inj hl, ← Option.some.inj hu, ← Option.some.inj hv]
    exact h j hj

namespace Program

/-- The vectors of rationals that satisfy the bounds and the rows of a program, whole or not. -/
def region (p : Program Exact) : Set (Array Exact) :=
  {x | x.size = p.size ∧ (∀ v ∈ x, ∃ q : ℚ, v = .ofRat q) ∧
    (∀ (j : Nat) (l u v : Exact), p.lower[j]? = some l → p.upper[j]? = some u → x[j]? = some v →
      l ≤ v ∧ v ≤ u) ∧
    ∀ row ∈ p.rows, row.activity x ≤ row.rhs}

variable {p : Program Exact} {n : Nat} {c a : Nat → ℚ} {c₀ b : ℚ}

/-- A vector of rationals is in the region if it is within the bounds and satisfies the rows. -/
theorem vector_mem_region_iff {l u : Nat → Exact} (hlower : p.lower = tabulate p.size l)
    (hupper : p.upper = tabulate p.size u) {x : Nat → ℚ} :
    vector p.size x ∈ p.region ↔ OneRow.InBounds p.size l u x ∧
      ∀ row ∈ p.rows, row.activity (vector p.size x) ≤ row.rhs := by
  have hbounds : (∀ (j : Nat) (l' u' v : Exact), p.lower[j]? = some l' → p.upper[j]? = some u' →
      (vector p.size x)[j]? = some v → l' ≤ v ∧ v ≤ u') ↔ OneRow.InBounds p.size l u x := by
    rw [hlower, hupper]
    exact OneRow.inBounds_iff
  constructor
  · rintro ⟨-, -, hin, hrows⟩
    exact ⟨hbounds.mp hin, hrows⟩
  · rintro ⟨hin, hrows⟩
    refine ⟨size_tabulate _, fun v hv => ?_, hbounds.mpr hin, hrows⟩
    obtain ⟨j, -, rfl⟩ := mem_tabulate.mp hv
    exact ⟨x j, rfl⟩

/-- The points of the region are vectors of rationals. -/
theorem exists_of_mem_region {x : Array Exact} (hx : x ∈ p.region) : ∃ z, x = vector p.size z := by
  obtain ⟨z, hz⟩ := exists_eq_vector fun v hv => isFinite_iff.mpr (hx.2.1 v hv)
  rw [hx.1] at hz
  exact ⟨z, hz⟩

/-- A well-formed program with a finite objective and at most one row is one of rationals. -/
theorem exists_numbers (hp : p.WellFormed) (hcosts : ∀ v ∈ p.costs, Scalar.isFinite v = true)
    (hconstant : Scalar.isFinite p.constant = true) (hrows : p.rows.size ≤ 1) :
    ∃ c a c₀ b, p.Numbers p.size c a c₀ b := by
  obtain ⟨c, hc⟩ := exists_eq_vector hcosts
  obtain ⟨c₀, hc₀⟩ := isFinite_iff.mp hconstant
  rcases Nat.le_one_iff_eq_zero_or_eq_one.mp hrows with hzero | hone
  · exact ⟨c, fun _ => 0, c₀, 0, hc, hc₀, Or.inr ⟨Array.eq_empty_of_size_eq_zero hzero,
      fun _ _ => rfl, rfl⟩⟩
  · obtain ⟨row, hrow⟩ := Array.size_eq_one_iff.mp hone
    have hmem : row ∈ p.rows := by
      rw [hrow]
      exact Array.mem_singleton.mpr rfl
    obtain ⟨hcoefs, hrhs⟩ := hp.finite_row row hmem
    obtain ⟨a, ha⟩ := exists_eq_vector hcoefs
    obtain ⟨b, hb⟩ := isFinite_iff.mp hrhs
    rw [hp.size_row row hmem] at ha
    refine ⟨c, a, c₀, b, hc, hc₀, Or.inl ?_⟩
    rw [hrow, ← ha, ← hb]

/-- With a finite objective, finite points have rational values. -/
theorem exists_objective_eq (hcosts : ∀ v ∈ p.costs, Scalar.isFinite v = true)
    (hconstant : Scalar.isFinite p.constant = true) {x : Array Exact} (hsize : x.size = p.size)
    (hx : ∀ v ∈ x, Scalar.isFinite v = true) : ∃ q : ℚ, p.objective x = .ofRat q := by
  obtain ⟨c, hc⟩ := exists_eq_vector hcosts
  obtain ⟨c₀, hc₀⟩ := isFinite_iff.mp hconstant
  obtain ⟨y, hy⟩ := exists_eq_vector hx
  unfold Program.objective
  rw [hy, hsize, hc, hc₀]
  exact ⟨_, by rw [Program.size, dot_vector, ofRat_add]⟩

namespace Numbers

theorem objective_eq (h : p.Numbers n c a c₀ b) (x : Nat → ℚ) :
    p.objective (vector n x) = .ofRat (c₀ + ∑ j ∈ range n, c j * x j) := by
  unfold Program.objective
  rw [h.costs, h.constant, dot_vector, ofRat_add]

/-- A point satisfies all rows of a program if its activity is within the right-hand side. -/
theorem rows_iff (h : p.Numbers n c a c₀ b) (x : Nat → ℚ) :
    (∀ row ∈ p.rows, row.activity (vector n x) ≤ row.rhs) ↔ ∑ j ∈ range n, a j * x j ≤ b := by
  rcases h.row with hrow | ⟨hrow, hzero, rfl⟩
  · rw [hrow]
    simp only [List.mem_toArray, List.mem_singleton, forall_eq, Row.activity, dot_vector, ofRat_le]
  · rw [hrow]
    refine iff_of_true (fun row hmem => absurd hmem (Array.not_mem_empty _)) (le_of_eq ?_)
    exact Finset.sum_eq_zero fun j hj => by rw [hzero j (Finset.mem_range.mp hj), zero_mul]

/-- A point is as good as another one if its signed costs are as low. -/
theorem noWorse_objective_iff (h : p.Numbers n c a c₀ b) {x z : Nat → ℚ} :
    p.sense.noWorse (p.objective (vector n x)) (p.objective (vector n z)) ↔
      ∑ j ∈ range n, p.sense.signed c j * x j ≤ ∑ j ∈ range n, p.sense.signed c j * z j := by
  rw [h.objective_eq, h.objective_eq]
  cases p.sense with
  | minimise => simp [Sense.noWorse, Sense.signed]
  | maximise => simp [Sense.noWorse, Sense.signed]

/-- A point is better than a value if its signed costs are low enough. -/
theorem exists_better_of_lt (h : p.Numbers n c a c₀ b) (value : ℚ) : ∃ m : ℚ, ∀ x : Nat → ℚ,
    ∑ j ∈ range n, p.sense.signed c j * x j < m →
      p.sense.better (p.objective (vector n x)) (.ofRat value) = true := by
  simp only [h.objective_eq]
  cases p.sense with
  | minimise =>
    refine ⟨value - c₀, fun x hlt => ?_⟩
    simp only [Sense.signed] at hlt
    simp only [Sense.better, ofRat_lt, decide_eq_true_iff]
    linarith
  | maximise =>
    refine ⟨c₀ - value, fun x hlt => ?_⟩
    simp only [Sense.signed, neg_mul, sum_neg_distrib] at hlt
    simp only [Sense.better, ofRat_lt, decide_eq_true_iff]
    linarith

end Numbers

/-! ## Programs of one variable -/

/-- The least `cost * x` for whole `x` within bounds. -/
def line (cost lower upper : Exact) : Program Exact where
  sense := .minimise
  costs := #[cost]
  constant := .ofRat 0
  lower := #[lower]
  upper := #[upper]
  integers := #[0]
  binaries := #[]
  rows := #[]

section

variable {cost lower upper : Exact}

theorem build_line (cost : Exact) (hlower : lower ≠ .nan) (hupper : upper ≠ .nan) :
    build .minimise #[cost] [.bounds 0 lower upper, .integer 0] = .ok (line cost lower upper) := by
  have hvalid : (Scalar.isNaN lower || Scalar.isNaN upper) = false := by
    rw [isNaN_eq_false_iff.mpr hlower, isNaN_eq_false_iff.mpr hupper, Bool.or_false]
  simp [build, Step.apply, setBounds, markInteger, checkVariable, ofCosts, Program.size, bind,
    Except.bind, pure, Except.pure, insertAscending, line, hvalid]

theorem vector_line (q : ℚ) : vector (line cost lower upper).size (fun _ => q) = #[.ofRat q] :=
  tabulate_one fun _ => Exact.ofRat q

theorem mem_region_line {q : ℚ} (hlower : lower ≤ .ofRat q) (hupper : .ofRat q ≤ upper) :
    #[.ofRat q] ∈ (line cost lower upper).region := by
  have hmem : vector (line cost lower upper).size (fun _ => q) ∈ (line cost lower upper).region :=
    (vector_mem_region_iff (tabulate_one fun _ => lower).symm
      (tabulate_one fun _ => upper).symm).mpr
      ⟨fun _ _ => ⟨hlower, hupper⟩, fun _ hrow => absurd hrow (Array.not_mem_empty _)⟩
  rwa [vector_line] at hmem

theorem whole_line (k : ℤ) : (line cost lower upper).problem.Whole #[.ofRat k] := by
  intro var hvar
  obtain rfl : var = 0 := by simpa [line, Program.problem] using hvar
  exact ⟨k, rfl⟩

end

end Program

namespace OneRow

variable {p : Program Exact} {r : OneRow Exact} {n : Nat} {c a : Nat → ℚ} {c₀ b : ℚ}

theorem ofProgram_eq_ok {α : Type} [Scalar α] {p : Program α} {r : OneRow α}
    (h : ofProgram p = .ok r) : p.rows.size ≤ 1 ∧ r.program = p ∧
    r.costs = match p.sense with
      | .minimise => p.costs
      | .maximise => p.costs.map (-·) := by
  unfold ofProgram at h
  split at h
  · cases h
  · rename_i hsize
    rw [← Except.ok.inj h]
    exact ⟨not_lt.mp hsize, rfl, rfl⟩

theorem size_costs {α : Type} [Scalar α] {p : Program α} {r : OneRow α}
    (h : ofProgram p = .ok r) : r.costs.size = p.size := by
  rw [(ofProgram_eq_ok h).2.2]
  cases p.sense with
  | minimise => rfl
  | maximise => exact Array.size_map

/-- The relaxation reads the numbers of its program, with signed costs. -/
theorem reads_of_ofProgram (hp : p.Numbers n c a c₀ b) (h : ofProgram p = .ok r) :
    r.Reads n (p.sense.signed c) a b := by
  obtain ⟨-, hprogram, hcosts⟩ := ofProgram_eq_ok h
  constructor
  · rw [hcosts, hp.costs]
    cases p.sense with
    | minimise => rfl
    | maximise => exact map_tabulate _ _
  · unfold row?
    rw [hprogram]
    rcases hp.row with hrow | ⟨hrow, hzero, hb⟩
    · rw [hrow]
      exact Or.inl rfl
    · rw [hrow]
      exact Or.inr ⟨rfl, hzero, hb⟩

/-- The bounds of a well-formed program are tightened by every node over it. -/
theorem tighten_ok {α : Type} [Scalar α] {p : Program α} (hp : p.WellFormed) {node : Node α}
    (hover : node.IsOver p.problem) : ∃ lower upper,
    node.tighten p.lower p.upper = .ok (lower, upper) ∧ lower.size = p.size ∧
      upper.size = p.size := by
  have hvars : ∀ var ∈ node.vars, var < p.size := by
    rw [hover.1]
    exact hp.known
  obtain ⟨l, hl⟩ := exists_eq_tabulate hp.size_lower Scalar.nan
  obtain ⟨u, hu⟩ := exists_eq_tabulate hp.size_upper Scalar.nan
  obtain ⟨l', u', htighten⟩ := Node.exists_tighten hvars l u
  rw [← hl, ← hu] at htighten
  exact ⟨_, _, htighten, size_tabulate l', size_tabulate u'⟩

/-- The answer for a node, once its bounds are tightened. -/
theorem answer_of_tighten {α : Type} [Scalar α] {r : OneRow α} {node : Node α}
    {lower upper : Array α}
    (h : node.tighten r.program.lower r.program.upper = .ok (lower, upper))
    (cutoff : Option (Cutoff α)) :
    r.answer node cutoff =
      if (lower.zip upper).any fun (l, u) => decide (u + boundTolerance < l) then .ok .infeasible
      else
        match r.solveBox lower upper with
        | .unbounded => .ok .failed
        | .infeasible => .ok .infeasible
        | .solved x =>
          if cutoff.any (·.excludes (r.program.objective x)) then .ok .infeasible
          else .ok (.optimal x (r.program.objective x)) := by
  unfold answer
  rw [h]
  rfl

theorem exists_answer_of_tighten {α : Type} [Scalar α] {r : OneRow α} {node : Node α}
    {lower upper : Array α}
    (h : node.tighten r.program.lower r.program.upper = .ok (lower, upper))
    (cutoff : Option (Cutoff α)) : ∃ answer, r.answer node cutoff = .ok answer := by
  rw [answer_of_tighten h]
  split
  · exact ⟨_, rfl⟩
  · split
    · exact ⟨_, rfl⟩
    · exact ⟨_, rfl⟩
    · split
      · exact ⟨_, rfl⟩
      · exact ⟨_, rfl⟩

end OneRow

end BranchBound
