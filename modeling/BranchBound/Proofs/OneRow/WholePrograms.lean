import BranchBound.Proofs.Coverage
import BranchBound.Proofs.OneRow.Answers

/-!
# Whole programs with one row

Programs all of whose variables are whole and have whole bounds, with a row of whole numbers. Over
every node the relaxation finds that no point is left, or it comes to an optimum whose activities
are whole (`Whole.answer_cases`). So it is sound for the whole points of the program
(`Whole.sound`), and where the tolerances are small against the row, a point that the search takes
for whole is one of them (`Whole.leavesIn`).
-/

namespace BranchBound

open Exact Finset

namespace Program

/-- Whether a program has finite whole bounds that do not cross, whole variables only, whole rows
and a finite objective. -/
structure IsWhole (p : Program Exact) (lo hi : Nat → ℤ) : Prop where
  integers : ∀ j < p.size, j ∈ p.integers
  lower : ∀ j < p.size, p.lower[j]? = some (.ofRat (lo j))
  upper : ∀ j < p.size, p.upper[j]? = some (.ofRat (hi j))
  le : ∀ j < p.size, lo j ≤ hi j
  costs : ∀ v ∈ p.costs, Scalar.isFinite v = true
  constant : Scalar.isFinite p.constant = true
  coefs : ∀ row ∈ p.rows, ∀ v ∈ row.coefs, ∃ k : ℤ, v = .ofRat k
  rhs : ∀ row ∈ p.rows, ∃ k : ℤ, row.rhs = .ofRat k

/-- The vectors of whole numbers that satisfy the bounds and the rows of a program. -/
def wholePoints (p : Program Exact) : Set (Array Exact) :=
  {x | x.size = p.size ∧ (∀ v ∈ x, ∃ k : ℤ, v = .ofRat k) ∧
    (∀ (j : Nat) (l u v : Exact), p.lower[j]? = some l → p.upper[j]? = some u → x[j]? = some v →
      l ≤ v ∧ v ≤ u) ∧
    ∀ row ∈ p.rows, row.activity x ≤ row.rhs}

end Program

namespace OneRow

/-- A whole program with its relaxation and its numbers. -/
structure Whole (p : Program Exact) (r : OneRow Exact) (n : Nat) (c a : Nat → ℚ) (c₀ b : ℚ)
    (lo hi : Nat → ℤ) : Prop where
  wellFormed : p.WellFormed
  numbers : p.Numbers n c a c₀ b
  relaxed : ofProgram p = .ok r
  size : p.size = n
  integers : ∀ j < n, j ∈ p.integers
  lower : p.lower = tabulate n fun j => .ofRat (lo j)
  upper : p.upper = tabulate n fun j => .ofRat (hi j)
  le : ∀ j < n, lo j ≤ hi j
  coefs : ∀ j < n, a j ∈ wholes
  rhs : b ∈ wholes

theorem exists_whole {p : Program Exact} {r : OneRow Exact} {lo hi : Nat → ℤ} (hp : p.WellFormed)
    (hr : ofProgram p = .ok r) (h : p.IsWhole lo hi) :
    ∃ c a c₀ b, Whole p r p.size c a c₀ b lo hi := by
  obtain ⟨c, a, c₀, b, hn⟩ := Program.exists_numbers hp h.costs h.constant (ofProgram_eq_ok hr).1
  refine ⟨c, a, c₀, b, hp, hn, hr, rfl, h.integers, eq_tabulate hp.size_lower h.lower,
    eq_tabulate hp.size_upper h.upper, h.le, fun j hj => ?_, ?_⟩
  · rcases hn.row with hrow | ⟨-, hzero, -⟩
    · obtain ⟨k, hk⟩ := h.coefs ⟨vector p.size a, .ofRat b⟩ (by rw [hrow]; simp) (.ofRat (a j))
        (mem_tabulate.mpr ⟨j, hj, rfl⟩)
      exact mem_wholes.mpr ⟨k, Exact.ofRat.inj hk⟩
    · rw [hzero j hj]
      exact wholes.zero_mem
  · rcases hn.row with hrow | ⟨-, -, hb⟩
    · obtain ⟨k, hk⟩ := h.rhs ⟨vector p.size a, .ofRat b⟩ (by rw [hrow]; simp)
      exact mem_wholes.mpr ⟨k, Exact.ofRat.inj hk⟩
    · rw [hb]
      exact wholes.zero_mem

/-! ## Over a node -/

/-- A best point of a node within bounds and row, with whole activities. -/
structure NodeOptimum (n : Nat) (d a : Nat → ℚ) (lo hi : Nat → ℤ) (b : ℚ) (node : Node Exact)
    (x : Nat → ℚ) : Prop where
  inBounds : ∀ j < n, (lo j : ℚ) ≤ x j ∧ x j ≤ hi j
  contains : node.Contains (vector n x)
  row_le : ∑ j ∈ range n, a j * x j ≤ b + allowance b
  best : ∀ z : Nat → ℚ, (∀ j < n, (lo j : ℚ) ≤ z j ∧ z j ≤ hi j) → node.Contains (vector n z) →
    ∑ j ∈ range n, a j * z j ≤ b → ∑ j ∈ range n, d j * x j ≤ ∑ j ∈ range n, d j * z j
  activities : WholeActivities n a x

section

variable {n : Nat} {d a : Nat → ℚ} {lo hi : Nat → ℤ}

/-- Whole bounds cross beyond the tolerance as soon as they cross. -/
theorem any_crossed_iff : ((tabulate n fun j => (Exact.ofRat (lo j), Exact.ofRat (hi j))).any
    fun b => decide (b.2 + boundTolerance < b.1)) = true ↔ ∃ j < n, hi j < lo j := by
  rw [any_tabulate]
  refine exists_congr fun j => and_congr Iff.rfl ?_
  show decide (Exact.ofRat (hi j) + boundTolerance < .ofRat (lo j)) = true ↔ _
  rw [decide_eq_true_iff, boundTolerance_eq, ofRat_add, ofRat_lt]
  constructor
  · intro hlt
    have : (hi j : ℚ) < lo j := by linarith
    exact_mod_cast this
  · intro hlt
    have : (hi j : ℚ) + 1 ≤ lo j := by exact_mod_cast hlt
    linarith

theorem low_column_ofRat (j : Nat) :
    (column d a (fun j => .ofRat (lo j)) (fun j => .ofRat (hi j)) j).low =
      .ofRat (if 0 < a j then a j * lo j else a j * hi j) := by
  unfold Column.low column
  rw [zero_eq]
  simp only [ofRat_lt, ofRat_mul]
  split <;> rfl

theorem resting_column_ofRat (j : Nat) :
    (column d a (fun j => .ofRat (lo j)) (fun j => .ofRat (hi j)) j).resting =
      .ofRat (if 0 < d j then lo j else if d j < 0 then hi j else lo j) := by
  unfold Column.resting column
  rw [zero_eq]
  simp only [ofRat_lt, isFinite_ofRat, if_true]
  split_ifs <;> rfl

theorem wholeBounds_ofRat (bound : Nat → ℤ) : WholeBounds n fun j => .ofRat (bound j) := by
  intro j _ q hq
  exact mem_wholes.mpr ⟨bound j, (Exact.ofRat.inj hq).symm⟩

end

namespace Whole

variable {p : Program Exact} {r : OneRow Exact} {n : Nat} {c a : Nat → ℚ} {c₀ b : ℚ}
  {lo hi : Nat → ℤ} {node : Node Exact}

/-- Bounds that move away from whole ones stay whole. -/
theorem exists_eq_of_moves {bound : Nat → ℤ} {f : Nat → Exact}
    (h : Node.Moves (fun j => .ofRat (bound j)) f) :
    ∃ bound' : Nat → ℤ, f = fun j => .ofRat (bound' j) := by
  have hentry : ∀ j, ∃ k : ℤ, f j = .ofRat k := fun j => (h j).elim (fun h => ⟨bound j, h⟩) id
  choose bound' h' using hentry
  exact ⟨bound', funext h'⟩

/-- The tightened bounds of a node are whole, and say which points are left. -/
theorem exists_tighten (h : Whole p r n c a c₀ b lo hi) (hover : node.IsOver p.problem) :
    ∃ lo' hi' : Nat → ℤ, node.tighten r.program.lower r.program.upper =
        .ok (tabulate n fun j => .ofRat (lo' j), tabulate n fun j => .ofRat (hi' j)) ∧
      ∀ z : Nat → ℚ, InBounds n (fun j => .ofRat (lo' j)) (fun j => .ofRat (hi' j)) z ↔
        (∀ j < n, (lo j : ℚ) ≤ z j ∧ z j ≤ hi j) ∧ node.Contains (vector n z) := by
  have hvars : ∀ var ∈ node.vars, var < n := by
    intro var hvar
    rw [hover.1] at hvar
    rw [← h.size]
    exact h.wellFormed.known var hvar
  obtain ⟨l', u', htighten, hl, hu, hwithin⟩ := Node.tighten_tabulate
    (l := fun j => .ofRat (lo j)) (u := fun j => .ofRat (hi j)) hvars
    (fun _ hnan => nomatch hnan) fun _ hnan => nomatch hnan
  obtain ⟨lo', rfl⟩ := exists_eq_of_moves hl
  obtain ⟨hi', rfl⟩ := exists_eq_of_moves hu
  refine ⟨lo', hi', ?_, fun z => ?_⟩
  · rw [(ofProgram_eq_ok h.relaxed).2.1, h.lower, h.upper]
    exact htighten
  · refine (hwithin fun j => .ofRat (z j)).trans (and_congr ?_ Iff.rfl)
    simp only [ofRat_le]

/-- Over a node no point is left, or the relaxation comes to an optimum, and answers with it unless
the cutoff excludes it. -/
theorem answer_cases (h : Whole p r n c a c₀ b lo hi) (hover : node.IsOver p.problem) :
    ((∀ cutoff, r.answer node cutoff = .ok .infeasible) ∧
      ∀ z : Nat → ℚ, (∀ j < n, (lo j : ℚ) ≤ z j ∧ z j ≤ hi j) → node.Contains (vector n z) →
        b < ∑ j ∈ range n, a j * z j) ∨
    ∃ x, NodeOptimum n (p.sense.signed c) a lo hi b node x ∧ ∀ cutoff, r.answer node cutoff =
      if cutoff.any (·.excludes (p.objective (vector n x))) then .ok .infeasible
      else .ok (.optimal (vector n x) (p.objective (vector n x))) := by
  obtain ⟨lo', hi', htighten, hwithin⟩ := h.exists_tighten hover
  have hanswer := answer_of_tighten htighten
  rw [(ofProgram_eq_ok h.relaxed).2.1, zip_tabulate] at hanswer
  by_cases hlt : ∃ j < n, hi' j < lo' j
  · refine Or.inl ⟨fun cutoff => ?_, fun z hz hin => ?_⟩
    · rw [hanswer, if_pos (any_crossed_iff.mpr hlt)]
    · obtain ⟨j, hj, hjlt⟩ := hlt
      obtain ⟨hlow, hhigh⟩ := (hwithin z).mpr ⟨hz, hin⟩ j hj
      rw [ofRat_le] at hlow hhigh
      have hle : (lo' j : ℚ) ≤ hi' j := hlow.trans hhigh
      exact absurd (by exact_mod_cast hle) (not_le.mpr hjlt)
  · have hle : ∀ j < n, (lo' j : ℚ) ≤ hi' j := fun j hj => by
      exact_mod_cast not_lt.mp fun hjlt => hlt ⟨j, hj, hjlt⟩
    rcases solveBox_cases (reads_of_ofProgram h.numbers h.relaxed)
        (fun j hj => (ofRat_le _ _).mpr (hle j hj)) (fun _ _ hinf => by cases hinf)
        (fun _ _ hinf => by cases hinf) (fun j _ _ => low_column_ofRat j)
        (fun j _ _ => resting_column_ofRat j) with ⟨hbox, hnone⟩ | ⟨x, hbox, hx, hactivities⟩
    · refine Or.inl ⟨fun cutoff => ?_, fun z hz hin => hnone z ((hwithin z).mpr ⟨hz, hin⟩)⟩
      rw [hanswer, if_neg (mt any_crossed_iff.mp hlt), hbox]
    · refine Or.inr ⟨x, ⟨?_, ?_, hx.row_le, fun z hz hin hrow =>
        hx.best z ((hwithin z).mpr ⟨hz, hin⟩) hrow,
        hactivities h.coefs h.rhs (wholeBounds_ofRat lo') (wholeBounds_ofRat hi')⟩,
        fun cutoff => ?_⟩
      · exact ((hwithin x).mp hx.inBounds).1
      · exact ((hwithin x).mp hx.inBounds).2
      · rw [hanswer, if_neg (mt any_crossed_iff.mp hlt), hbox]

/-! ## Whole points -/

/-- The whole points are the vectors of whole numbers within bounds and row. -/
theorem mem_wholePoints_iff (h : Whole p r n c a c₀ b lo hi) {x : Array Exact} :
    x ∈ p.wholePoints ↔ ∃ z : Nat → ℤ, x = vector n (fun j => z j) ∧
      (∀ j < n, (lo j : ℚ) ≤ z j ∧ (z j : ℚ) ≤ hi j) ∧ ∑ j ∈ range n, a j * z j ≤ b := by
  constructor
  · rintro ⟨hsize, hwhole, hbounds, hrows⟩
    rw [h.size] at hsize
    have hentry : ∀ j, ∃ k : ℤ, j < n → x[j]? = some (.ofRat k) := by
      intro j
      by_cases hj : j < n
      · have hlt : j < x.size := by omega
        obtain ⟨k, hk⟩ := hwhole x[j] (Array.getElem_mem hlt)
        exact ⟨k, fun _ => by rw [Array.getElem?_eq_getElem hlt, hk]⟩
      · exact ⟨0, fun hlt => absurd hlt hj⟩
    choose z hz using hentry
    obtain rfl : x = vector n fun j => z j := eq_tabulate hsize hz
    refine ⟨z, rfl, fun j hj => ?_, (h.numbers.rows_iff _).mp hrows⟩
    have hb := hbounds j _ _ _ (by rw [h.lower, getElem?_tabulate_of_lt _ hj])
      (by rw [h.upper, getElem?_tabulate_of_lt _ hj]) (hz j hj)
    rwa [ofRat_le, ofRat_le] at hb
  · rintro ⟨z, rfl, hbounds, hrow⟩
    refine ⟨by rw [h.size]; exact size_tabulate _, fun v hv => ?_, fun j l u v hl hu hv => ?_,
      (h.numbers.rows_iff _).mpr hrow⟩
    · obtain ⟨j, -, rfl⟩ := mem_tabulate.mp hv
      exact ⟨z j, rfl⟩
    · have hj : j < n := by
        have hlt := (Array.getElem?_eq_some_iff.mp hv).1
        rwa [vector, size_tabulate] at hlt
      rw [h.lower, getElem?_tabulate_of_lt _ hj] at hl
      rw [h.upper, getElem?_tabulate_of_lt _ hj] at hu
      rw [vector, getElem?_tabulate_of_lt _ hj] at hv
      rw [← Option.some.inj hl, ← Option.some.inj hu, ← Option.some.inj hv, ofRat_le, ofRat_le]
      exact hbounds j hj

theorem whole_of_mem (h : Whole p r n c a c₀ b lo hi) {x : Array Exact}
    (hx : x ∈ p.wholePoints) : p.problem.Whole x := by
  obtain ⟨z, rfl, -, -⟩ := h.mem_wholePoints_iff.mp hx
  intro var hvar
  have hlt : var < n := by
    rw [← h.size]
    exact h.wellFormed.known var hvar
  exact ⟨z var, getElem?_tabulate_of_lt _ hlt⟩

/-- An answer with a point has an optimum of the node. -/
theorem exists_optimum (h : Whole p r n c a c₀ b lo hi) (hover : node.IsOver p.problem)
    {cutoff : Option (Cutoff Exact)} {answer : Answer Exact}
    (hanswer : r.answer node cutoff = .ok answer)
    (hfeasible : answer.verdict.isFeasible = true) :
    ∃ x, NodeOptimum n (p.sense.signed c) a lo hi b node x ∧ answer.point = vector n x := by
  rcases h.answer_cases hover with ⟨hinfeasible, -⟩ | ⟨x, hx, hcases⟩
  · rw [hinfeasible] at hanswer
    rw [← Except.ok.inj hanswer] at hfeasible
    cases hfeasible
  · rw [hcases] at hanswer
    split at hanswer
    · rw [← Except.ok.inj hanswer] at hfeasible
      cases hfeasible
    · rw [← Except.ok.inj hanswer]
      exact ⟨x, hx, rfl⟩

/-- The relaxation is sound for the whole points of the program. -/
theorem sound (h : Whole p r n c a c₀ b lo hi) :
    r.relaxation.Sound p.problem p.wholePoints where
  point := by
    intro call node cutoff answer hover _ hanswer hfeasible
    obtain ⟨x, hx, hpoint⟩ := h.exists_optimum hover hanswer hfeasible
    rw [hpoint]
    refine ⟨by rw [← h.size]; exact size_tabulate _, fun v hv => isFinite_of_mem_vector hv,
      hx.contains, fun y hy hin => ?_⟩
    obtain ⟨z, rfl, hz, hrow⟩ := h.mem_wholePoints_iff.mp hy
    exact h.numbers.noWorse_objective_iff.mpr (hx.best _ hz hin hrow)
  none := by
    intro call node cutoff answer hover hsuits hanswer hfeasible y hy hin
    replace hanswer : r.answer node cutoff = .ok answer := hanswer
    obtain ⟨z, rfl, hz, hrow⟩ := h.mem_wholePoints_iff.mp hy
    rcases h.answer_cases hover with ⟨-, hnone⟩ | ⟨x, hx, hcases⟩
    · exact absurd hrow (not_le.mpr (hnone _ hz hin))
    · rw [hcases] at hanswer
      split at hanswer
      · rename_i hexcluded
        obtain ⟨limit, rfl, hlimit⟩ := (Option.any_eq_true _ _).mp hexcluded
        refine ⟨limit, rfl, Cutoff.excludes_of_noWorse (hsuits limit rfl) ?_ hlimit⟩
        exact h.numbers.noWorse_objective_iff.mpr (hx.best _ hz hin hrow)
      · rw [← Except.ok.inj hanswer] at hfeasible
        cases hfeasible

/-- A value that is whole within a tolerance, and has a whole multiple, is whole if the tolerance is
small against the factor. -/
theorem whole_of_fractionality_le {q factor t : ℚ} {tolerance : Exact}
    (ht : tolerance = .ofRat t) (hq : ¬tolerance < fractionality (.ofRat q))
    (hfactor : factor ∈ wholes) (hproduct : factor * q ∈ wholes) (hne : factor ≠ 0)
    (hsmall : |factor| * t < 1) : q ∈ wholes := by
  rw [ht, fractionality_ofRat, ofRat_lt, not_lt] at hq
  have hnearest : (nearest q : ℚ) ∈ wholes := mem_wholes.mpr ⟨nearest q, rfl⟩
  obtain ⟨k, hk⟩ := mem_wholes.mp
    (wholes.sub_mem hproduct (wholes.mul_mem hfactor hnearest))
  -- the factor times the distance to the nearest whole number is whole and less than one
  have hlt : |(k : ℚ)| < 1 := by
    rw [← hk, ← mul_sub, abs_mul]
    exact lt_of_le_of_lt (mul_le_mul_of_nonneg_left hq (abs_nonneg factor)) hsmall
  have hzero : k = 0 := Int.abs_lt_one_iff.mp (by exact_mod_cast hlt)
  rw [hzero, Int.cast_zero, ← mul_sub, mul_eq_zero, sub_eq_zero] at hk
  rw [hk.resolve_left hne]
  exact hnearest

/-- A whole activity that is within the allowance is within the right-hand side. -/
theorem le_of_le_add_allowance {q : ℚ} (hq : q ∈ wholes) (hb : b ∈ wholes)
    (hsmall : allowance b < 1) (hle : q ≤ b + allowance b) : q ≤ b := by
  obtain ⟨k, rfl⟩ := mem_wholes.mp hq
  obtain ⟨m, rfl⟩ := mem_wholes.mp hb
  have hlt : (k : ℚ) < m + 1 := by linarith
  have hint : k < m + 1 := by exact_mod_cast hlt
  exact_mod_cast Int.lt_add_one_iff.mp hint

/-- A node's optimum at which the search does not branch is a whole point. -/
theorem mem_points_of_branching {criteria : Criteria Exact} {t : ℚ} {x : Nat → ℚ}
    (h : Whole p r n c a c₀ b lo hi) (hover : node.IsOver p.problem)
    (hx : NodeOptimum n (p.sense.signed c) a lo hi b node x)
    (ht : criteria.integrality = .ofRat t) (hsmall : ∀ j < n, |a j| * t < 1)
    (hb : allowance b < 1) (hnone : criteria.branching? (vector n x) node = .ok none) :
    vector n x ∈ p.wholePoints := by
  have hwhole : ∀ j < n, x j ∈ wholes := by
    intro j hj
    obtain ⟨hproduct, hoff⟩ := hx.activities j hj
    by_cases hzero : a j = 0
    · exact hoff hzero
    · obtain ⟨i, hi⟩ := Array.mem_iff_getElem?.mp (h.integers j hj)
      rw [show p.integers = node.vars from hover.1.symm] at hi
      obtain ⟨value, hvalue, hfrac⟩ := Criteria.branching?_eq_none hnone hi
      rw [vector, getElem?_tabulate_of_lt _ hj] at hvalue
      rw [← Option.some.inj hvalue] at hfrac
      exact whole_of_fractionality_le ht hfrac (h.coefs j hj) hproduct hzero (hsmall j hj)
  have hint : ∀ j, ∃ k : ℤ, j < n → x j = k := by
    intro j
    by_cases hj : j < n
    · obtain ⟨k, hk⟩ := mem_wholes.mp (hwhole j hj)
      exact ⟨k, fun _ => hk⟩
    · exact ⟨0, fun hlt => absurd hlt hj⟩
  choose z hz using hint
  refine h.mem_wholePoints_iff.mpr ⟨z, vector_congr hz, fun j hj => ?_, ?_⟩
  · rw [← hz j hj]
    exact hx.inBounds j hj
  · have hsum : ∑ j ∈ range n, a j * (z j : ℚ) = ∑ j ∈ range n, a j * x j :=
      Finset.sum_congr rfl fun j hj => by rw [hz j (Finset.mem_range.mp hj)]
    rw [hsum]
    refine le_of_le_add_allowance ?_ h.rhs hb hx.row_le
    exact wholes.sum_mem fun j hj =>
      wholes.mul_mem (h.coefs j (Finset.mem_range.mp hj)) (hwhole j (Finset.mem_range.mp hj))

/-- What the search takes for whole is a whole point, if the tolerances are small against the
row. -/
theorem leavesIn {settings : Settings Exact} (h : Whole p r n c a c₀ b lo hi)
    (hcheck : settings.check = .ok ())
    (hsmall : ∀ row ∈ p.rows, ∀ v ∈ row.coefs, Scalar.abs v * settings.integrality < 1.0)
    (hrhs : ∀ row ∈ p.rows, boundTolerance * (1.0 + Scalar.abs row.rhs) < 1.0) :
    Search.LeavesIn ⟨p.problem, r.relaxation, settings⟩ p.wholePoints := by
  obtain ⟨-, -, ⟨t, ht, -⟩, -⟩ := Settings.of_check hcheck
  have hcoefs : ∀ j < n, |a j| * t < 1 := by
    intro j hj
    rcases h.numbers.row with hrows | ⟨-, hzero, -⟩
    · have hlt := hsmall ⟨vector n a, .ofRat b⟩ (by rw [hrows]; simp) (.ofRat (a j))
        (mem_tabulate.mpr ⟨j, hj, rfl⟩)
      rwa [ht, abs_ofRat, ofRat_mul, one_eq, ofRat_lt] at hlt
    · rw [hzero j hj, abs_zero, zero_mul]
      exact one_pos
  have hallowance : allowance b < 1 := by
    rcases h.numbers.row with hrows | ⟨-, -, hb⟩
    · have hlt := hrhs ⟨vector n a, .ofRat b⟩ (by rw [hrows]; simp)
      rwa [boundTolerance_eq, one_eq, abs_ofRat, ofRat_add, ofRat_mul, ofRat_lt] at hlt
    · rw [hb, allowance, abs_zero]
      norm_num
  intro call node cutoff answer hover hanswer hfeasible _ hnone
  obtain ⟨x, hx, hpoint⟩ := h.exists_optimum hover hanswer hfeasible
  rw [hpoint] at hnone ⊢
  exact h.mem_points_of_branching hover hx ht hcoefs hallowance hnone

theorem size_vector (h : Whole p r n c a c₀ b lo hi) (x : Nat → ℚ) :
    ((vector n x).size == p.size) = true := by
  rw [h.size, vector, size_tabulate]
  exact beq_self_eq_true n

/-- A point within bounds and within the allowance of the row is accepted. -/
theorem accepts_of_le (h : Whole p r n c a c₀ b lo hi) {x : Nat → ℚ}
    (hbounds : ∀ j < n, (lo j : ℚ) ≤ x j ∧ x j ≤ hi j)
    (hrow : ∑ j ∈ range n, a j * x j ≤ b + allowance b) : p.accepts (vector n x) = true := by
  have htolerance : (Program.validationTolerance : Exact) = .ofRat (1 / 10 ^ 6) := by
    show ofRat _ = _
    congr 1
    norm_num
  have hwithin : p.withinBounds (vector n x) Program.validationTolerance = true := by
    unfold Program.withinBounds vector
    rw [h.lower, h.upper, zip_tabulate, zip_tabulate, all_tabulate]
    intro j hj
    obtain ⟨hlow, hhigh⟩ := hbounds j hj
    dsimp only
    rw [htolerance, ofRat_sub, ofRat_add, Bool.and_eq_true, decide_eq_true_iff,
      decide_eq_true_iff, ofRat_le, ofRat_le]
    constructor <;> linarith
  have hrows : (p.rows.all fun row => decide (row.violation (vector n x) ≤
      Program.validationTolerance * (1.0 + Scalar.abs row.rhs))) = true := by
    rw [Array.all_eq_true_iff_forall_mem]
    intro row hmem
    rw [decide_eq_true_iff]
    rcases h.numbers.row with hrows | ⟨hrows, -, -⟩
    · rw [hrows, List.mem_toArray, List.mem_singleton] at hmem
      rw [hmem]
      unfold Row.violation Row.activity
      rw [dot_vector, htolerance, one_eq, abs_ofRat, ofRat_sub, ofRat_add, ofRat_mul, ofRat_le]
      unfold allowance at hrow
      linarith [abs_nonneg b]
    · rw [hrows] at hmem
      exact absurd hmem (Array.not_mem_empty _)
  unfold Program.accepts
  rw [h.size_vector, all_isFinite_vector, hwithin, hrows]
  rfl

end Whole

end OneRow

/-! ## A small program -/

/-- The standard settings without a gap. -/
def Settings.gapless : Settings Exact := { Settings.standard with relativeGap := .ofRat 0 }

theorem Settings.check_gapless : gapless.check = .ok () := by
  have hrelative : checkTolerance .relativeGap gapless.relativeGap = .ok () :=
    if_neg (by decide +kernel)
  have habsolute : checkTolerance .absoluteGap gapless.absoluteGap = .ok () :=
    if_neg (by decide +kernel)
  have hintegrality : checkTolerance .integrality gapless.integrality = .ok () :=
    if_neg (by decide +kernel)
  have htight : ¬0.5 ≤ gapless.integrality := by decide +kernel
  unfold check
  rw [hrelative, habsolute, hintegrality, if_neg htight]
  rfl

theorem Settings.absoluteGap_gapless : gapless.absoluteGap = .ofRat 0 := zero_eq

namespace OneRow.Sample

/-- The greatest `x - y` with `2 x + y ≤ 3`, for whole `x` and `y` from zero to two. Its relaxation
has `x` at three halves. -/
def program : Program Exact where
  sense := .maximise
  costs := #[.ofRat 1, .ofRat (-1)]
  constant := .ofRat 0
  lower := #[.ofRat 0, .ofRat 0]
  upper := #[.ofRat 2, .ofRat 2]
  integers := #[0, 1]
  binaries := #[]
  rows := #[⟨#[.ofRat 2, .ofRat 1], .ofRat 3⟩]

def oneRow : OneRow Exact where
  program := program
  costs := #[.ofRat (-1), .ofRat 1]

theorem build_eq : Program.build .maximise #[.ofRat 1, .ofRat (-1)]
    [.allBounds (.ofRat 0) (.ofRat 2), .allInteger, .row #[.ofRat 2, .ofRat 1] (.ofRat 3)] =
      .ok program := by
  simp [Program.build, Program.Step.apply, Program.setAllBounds, Program.markAllInteger,
    Program.setBounds, Program.markInteger, Program.addRow, Program.checkVariable,
    Program.ofCosts, Program.size, bind, Except.bind, pure, Except.pure, insertAscending,
    program, List.range, List.range.loop]
  exact ⟨rfl, rfl⟩

theorem ofProgram_eq : ofProgram program = .ok oneRow := by
  simp [ofProgram, program, oneRow]

theorem eq_of_mem_rows {row : Row Exact} (hrow : row ∈ program.rows) :
    row = ⟨#[.ofRat 2, .ofRat 1], .ofRat 3⟩ := by
  simpa [program] using hrow

theorem coef_cases {row : Row Exact} (hrow : row ∈ program.rows) {v : Exact} (hv : v ∈ row.coefs) :
    v = .ofRat 2 ∨ v = .ofRat 1 := by
  rw [eq_of_mem_rows hrow] at hv
  exact List.mem_pair.mp (List.mem_toArray.mp hv)

theorem isWhole : program.IsWhole (fun _ => 0) (fun _ => 2) where
  integers := by decide +kernel
  lower := by decide +kernel
  upper := by decide +kernel
  le := by decide +kernel
  costs := by simp [program]
  constant := rfl
  coefs := by
    intro row hrow v hv
    rcases coef_cases hrow hv with rfl | rfl
    · exact ⟨2, rfl⟩
    · exact ⟨1, rfl⟩
  rhs := by
    intro row hrow
    rw [eq_of_mem_rows hrow]
    exact ⟨3, rfl⟩

theorem exists_whole : ∃ c a c₀ b, Whole program oneRow program.size c a c₀ b (fun _ => 0)
    fun _ => 2 :=
  OneRow.exists_whole (Program.of_build build_eq).wellFormed ofProgram_eq isWhole

def search (settings : Settings Exact) : Search Exact where
  problem := program.problem
  relaxation := oneRow.relaxation
  settings := settings

theorem sound : oneRow.relaxation.Sound program.problem program.wholePoints := by
  obtain ⟨c, a, c₀, b, h⟩ := exists_whole
  exact h.sound

theorem whole_of_mem {x : Array Exact} (hx : x ∈ program.wholePoints) :
    program.problem.Whole x := by
  obtain ⟨c, a, c₀, b, h⟩ := exists_whole
  exact h.whole_of_mem hx

/-- The tolerances are small against the row. -/
theorem small : ∀ row ∈ program.rows, ∀ v ∈ row.coefs,
    Scalar.abs v * Settings.gapless.integrality < 1.0 := by
  intro row hrow v hv
  rcases coef_cases hrow hv with rfl | rfl
  · decide +kernel
  · decide +kernel

theorem small_rhs : ∀ row ∈ program.rows,
    boundTolerance * (1.0 + Scalar.abs row.rhs) < (1.0 : Exact) := by
  intro row hrow
  rw [eq_of_mem_rows hrow]
  decide +kernel

theorem leavesIn : (search .gapless).LeavesIn program.wholePoints := by
  obtain ⟨c, a, c₀, b, h⟩ := exists_whole
  exact h.leavesIn Settings.check_gapless small small_rhs

/-- The origin is one of the whole points. -/
theorem mem_wholePoints : vector 2 (fun _ => 0) ∈ program.wholePoints := by
  obtain ⟨c, a, c₀, b, h⟩ := exists_whole
  have hb : b = 3 := by
    rcases h.numbers.row with hrow | ⟨hrow, -⟩
    · have hrhs := congrArg (fun rows : Array (Row Exact) => rows[0]?.map Row.rhs) hrow
      exact (Exact.ofRat.inj (Option.some.inj hrhs)).symm
    · exact absurd (congrArg Array.size hrow) (by decide)
  refine h.mem_wholePoints_iff.mpr ⟨fun _ => 0, by simp [program, Program.size], ?_, ?_⟩
  · intro j _
    norm_num
  · rw [hb]
    norm_num

end OneRow.Sample

end BranchBound
