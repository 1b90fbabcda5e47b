import BranchBound.Proofs.OneRow.Infeasibility
import BranchBound.Proofs.OneRow.Pivoting

/-!
# The relaxation is exact

What the relaxation of a program with at most one row says about a box is so (`Answer.Solves`),
whether or not the bounds are finite: an optimal point is a best one, an infeasible box has no point
within the row, and only over a box that has no end does it fail (`answer_solves`).

A box of which no bounds cross has a point, so every variable of the row has an activity in its
range. From there on the variables either all have a lowest activity, and are filled in from there,
or a pivot sets the price. In both cases the price certifies the point (`solveBox_exact`).
-/

namespace BranchBound

open Exact Finset

/-! ## Boxes -/

/-- The vectors of rationals within bounds. -/
def pointsWithin (lower upper : Array Exact) : Set (Array Exact) :=
  {x | x.size = lower.size ∧ (∀ v ∈ x, ∃ q : ℚ, v = .ofRat q) ∧
    ∀ (j : Nat) (l u v : Exact), lower[j]? = some l → upper[j]? = some u → x[j]? = some v →
      l ≤ v ∧ v ≤ u}

/-- What an answer says about a program over a box is so. -/
structure Answer.Solves (answer : Answer Exact) (p : Program Exact) (lower upper : Array Exact) :
    Prop where
  verdict : answer.verdict = .optimal ∨ answer.verdict = .infeasible ∨ answer.verdict = .failed
  /-- The point is in the box and within the rows, up to the tolerance, and none of the box that is
  within the rows is better. -/
  optimal : answer.verdict = .optimal → answer.point ∈ pointsWithin lower upper ∧
    (∀ row ∈ p.rows,
      row.activity answer.point ≤ row.rhs + 1e-9 * (1.0 + Scalar.abs row.rhs)) ∧
    answer.objective = p.objective answer.point ∧
    ∀ x ∈ pointsWithin lower upper, (∀ row ∈ p.rows, row.activity x ≤ row.rhs) →
      p.sense.better (p.objective x) answer.objective = false
  /-- No point of the box is within the rows. -/
  infeasible : answer.verdict = .infeasible →
    ∀ x ∈ pointsWithin lower upper, ¬∀ row ∈ p.rows, row.activity x ≤ row.rhs
  /-- If a point of the box is within the rows, there are better ones than any value. -/
  failed : answer.verdict = .failed → ∀ x ∈ pointsWithin lower upper,
    (∀ row ∈ p.rows, row.activity x ≤ row.rhs) → ∀ value : ℚ, ∃ y ∈ pointsWithin lower upper,
      (∀ row ∈ p.rows, row.activity y ≤ row.rhs) ∧
        p.sense.better (p.objective y) (.ofRat value) = true

namespace OneRow

section

variable {n : Nat} {d a : Nat → ℚ} {b : ℚ} {l u : Nat → Exact}

theorem vector_mem_pointsWithin_iff {x : Nat → ℚ} :
    vector n x ∈ pointsWithin (tabulate n l) (tabulate n u) ↔ InBounds n l u x := by
  constructor
  · rintro ⟨-, -, hin⟩
    exact inBounds_iff.mp hin
  · intro hin
    refine ⟨by rw [vector, size_tabulate, size_tabulate], fun v hv => ?_, inBounds_iff.mpr hin⟩
    obtain ⟨j, -, rfl⟩ := mem_tabulate.mp hv
    exact ⟨x j, rfl⟩

theorem exists_of_mem_pointsWithin {x : Array Exact}
    (hx : x ∈ pointsWithin (tabulate n l) (tabulate n u)) :
    ∃ z, x = vector n z ∧ InBounds n l u z := by
  obtain ⟨z, hz⟩ := exists_eq_vector fun v hv => isFinite_iff.mpr (hx.2.1 v hv)
  rw [hx.1, size_tabulate] at hz
  rw [hz, vector_mem_pointsWithin_iff] at hx
  exact ⟨z, hz, hx⟩

/-- Bounds that do not cross, and leave something on each side, have a point between them. -/
theorem exists_inBounds (hle : ∀ j < n, l j ≤ u j) (hl : ∀ j < n, l j ≠ .posInf)
    (hu : ∀ j < n, u j ≠ .negInf) : ∃ z, InBounds n l u z := by
  have hentry : ∀ j, ∃ q : ℚ, j < n → l j ≤ .ofRat q ∧ .ofRat q ≤ u j := by
    intro j
    by_cases hj : j < n
    · have hlj := hl j hj
      have huj := hu j hj
      have hbetween := hle j hj
      obtain ⟨hvl, hvu⟩ := valid_of_le hbetween
      cases hlower : l j with
      | ofRat p =>
        rw [hlower] at hbetween
        exact ⟨p, fun _ => ⟨le_refl_of_valid (by simp), hbetween⟩⟩
      | negInf =>
        cases hupper : u j with
        | ofRat q => exact ⟨q, fun _ => ⟨negInf_le_ofRat q, le_refl_of_valid (by simp)⟩⟩
        | posInf => exact ⟨0, fun _ => ⟨negInf_le_ofRat 0, ofRat_le_posInf 0⟩⟩
        | negInf => exact absurd hupper huj
        | nan => exact absurd hupper hvu
      | posInf => exact absurd hlower hlj
      | nan => exact absurd hlower hvl
    · exact ⟨0, fun hlt => absurd hlt hj⟩
  choose z hz using hentry
  exact ⟨z, hz⟩

/-- Solving over a box finds it unbounded, finds no point within the row because there is none, or
comes to a point. In the row that has activities that a price certifies, one of them at most inside
its range, and off the row it has the best values. -/
theorem solveBox_placed {r : OneRow Exact} (h : r.Reads n d a b) (hle : ∀ j < n, l j ≤ u j)
    (hl : ∀ j < n, l j ≠ .posInf) (hu : ∀ j < n, u j ≠ .negInf) :
    r.solveBox (tabulate n l) (tabulate n u) = .unbounded ∨
    (r.solveBox (tabulate n l) (tabulate n u) = .infeasible ∧
      ∀ z, InBounds n l u z → b < ∑ j ∈ range n, a j * z j) ∨
    ∃ x lo y price, r.solveBox (tabulate n l) (tabulate n u) = .solved (vector n x) ∧
      Placed d a lo b (rowColumns n d a l u) y price ∧ Cornered b (rowColumns n d a l u) y ∧
      (∀ j < n, a j ≠ 0 → a j * x j = y j) ∧
      ∀ j < n, a j = 0 → (column d a l u j).resting = .ofRat (x j) := by
  obtain ⟨z, hz⟩ := exists_inBounds hle hl hu
  have hcols := ranged_of_mem (d := d) (a := a) hz
  by_cases hrests : ∀ j < n, a j = 0 → ∃ q, (column d a l u j).resting = .ofRat q
  · choose! rest hrest using hrests
    have hoffRow : ∀ {x : Nat → ℚ}, (∀ j, a j = 0 → x j = rest j) →
        ∀ j < n, a j = 0 → (column d a l u j).resting = .ofRat (x j) := fun hoff j hj hzero => by
      rw [hoff j hzero]
      exact hrest j hj hzero
    rw [solveBox_eq h hrest, solveRow]
    cases hpivot : pivot? (rowColumns n d a l u) with
    | none =>
      have hlows : ∀ j < n, a j ≠ 0 → ∃ lo, (column d a l u j).low = .ofRat lo := by
        intro j hj hne
        have hmem : column d a l u j ∈ rowColumns n d a l u := mem_rowColumns.mpr ⟨j, hj, hne, rfl⟩
        exact (hcols _ hmem).low_cases.resolve_right (low_ne_negInf hpivot hmem)
      choose! lo hlow using hlows
      dsimp only
      rcases solveBounded_cases (inRow_of_mem hle hlow) nodup_rowColumns b with
        ⟨hlt, hinfeasible⟩ | ⟨y, price, hy, hcorner, hsolved⟩
      · exact Or.inr (Or.inl ⟨hinfeasible n _, fun z hz => lt_of_lt_of_le hlt (sum_low_le hlow hz)⟩)
      · obtain ⟨x, hpoint, hx, hoff⟩ := exists_placed_point n d a l u y rest
        refine Or.inr (Or.inr ⟨x, lo, y, price, ?_, hy, hcorner, hx, hoffRow hoff⟩)
        rw [hsolved, hpoint]
    | some pivot =>
      dsimp only
      rcases solvePriced_placed hcols nodup_rowColumns hpivot b with
        hunbounded | ⟨lo, y, price, hy, hcorner, hsolved⟩
      · exact Or.inl (hunbounded _)
      · obtain ⟨x, hpoint, hx, hoff⟩ := exists_placed_point n d a l u y rest
        refine Or.inr (Or.inr ⟨x, lo, y, price, ?_, hy, hcorner, hx, hoffRow hoff⟩)
        rw [hsolved, hpoint]
  · simp only [← isFinite_iff] at hrests
    push Not at hrests
    obtain ⟨j, hj, hzero, hnot⟩ := hrests
    exact Or.inl (solveBox_of_resting h hj hzero hnot)

/-- Solving over a box finds it unbounded, finds no point within the row because there is none, or
comes to an optimum. -/
theorem solveBox_exact {r : OneRow Exact} (h : r.Reads n d a b) (hle : ∀ j < n, l j ≤ u j)
    (hl : ∀ j < n, l j ≠ .posInf) (hu : ∀ j < n, u j ≠ .negInf) :
    r.solveBox (tabulate n l) (tabulate n u) = .unbounded ∨
    (r.solveBox (tabulate n l) (tabulate n u) = .infeasible ∧
      ∀ z, InBounds n l u z → b < ∑ j ∈ range n, a j * z j) ∨
    ∃ x, r.solveBox (tabulate n l) (tabulate n u) = .solved (vector n x) ∧
      Optimum n d a l u b x := by
  rcases solveBox_placed h hle hl hu with
    hunbounded | hinfeasible | ⟨x, _, y, price, hsolved, hy, -, hx, hrest⟩
  · exact Or.inl hunbounded
  · exact Or.inr (Or.inl hinfeasible)
  · exact Or.inr (Or.inr ⟨x, hsolved, hy.optimum hle hl hu hrest hx fun _ _ => rfl⟩)

end

section

variable {p : Program Exact} {r : OneRow Exact} {c a : Nat → ℚ} {c₀ b : ℚ} {l u : Nat → Exact}

/-- An optimum is answered as the solution that it is. -/
theorem Optimum.solves {x : Nat → ℚ} (hn : p.Numbers p.size c a c₀ b)
    (hx : Optimum p.size (p.sense.signed c) a l u b x) :
    (Answer.optimal (vector p.size x) (p.objective (vector p.size x))).Solves p
      (tabulate p.size l) (tabulate p.size u) where
  verdict := Or.inl rfl
  optimal _ := by
    refine ⟨vector_mem_pointsWithin_iff.mpr hx.inBounds, fun row hrow => ?_, rfl,
      fun y hy hrows => ?_⟩
    · rcases hn.row with hone | ⟨hnone, -⟩
      · rw [hone, List.mem_toArray, List.mem_singleton] at hrow
        rw [hrow]
        show Scalar.dot (vector p.size a) (vector p.size x) ≤ _
        rw [dot_vector, ofRat_allowance, ofRat_add, ofRat_le]
        exact hx.row_le
      · rw [hnone] at hrow
        exact absurd hrow (Array.not_mem_empty row)
    · obtain ⟨z, rfl, hz⟩ := exists_of_mem_pointsWithin hy
      exact Sense.not_better_of_noWorse
        (hn.noWorse_objective_iff.mpr (hx.best z hz ((hn.rows_iff z).mp hrows)))
  infeasible h := nomatch h
  failed h := nomatch h

/-- A box without a point within the row is answered as infeasible. -/
theorem solves_of_infeasible (hn : p.Numbers p.size c a c₀ b)
    (hnone : ∀ z, InBounds p.size l u z → b < ∑ j ∈ range p.size, a j * z j) :
    Answer.infeasible.Solves p (tabulate p.size l) (tabulate p.size u) where
  verdict := Or.inr (Or.inl rfl)
  optimal h := nomatch h
  infeasible _ x hx hrows := by
    obtain ⟨z, rfl, hz⟩ := exists_of_mem_pointsWithin hx
    exact absurd ((hn.rows_iff z).mp hrows) (not_le.mpr (hnone z hz))
  failed h := nomatch h

/-- In a direction in which the costs fall, values get better than any given one within the row, if
there is a point within it. -/
theorem Recedes.exists_better {z g : Nat → ℚ} (hn : p.Numbers p.size c a c₀ b)
    (hg : Recedes p.size (p.sense.signed c) a l u g) (hz : InBounds p.size l u z)
    (hrow : ∑ j ∈ range p.size, a j * z j ≤ b) (value : ℚ) :
    ∃ x ∈ pointsWithin (tabulate p.size l) (tabulate p.size u),
      (∀ row ∈ p.rows, row.activity x ≤ row.rhs) ∧
      p.sense.better (p.objective x) (.ofRat value) = true := by
  obtain ⟨m, hm⟩ := hn.exists_better_of_lt value
  obtain ⟨y, hy, hyrow, hlt⟩ := hg.exists_lt hz hrow m
  exact ⟨_, vector_mem_pointsWithin_iff.mpr hy, (hn.rows_iff y).mpr hyrow, hm y hlt⟩

/-- A box over which the objective is unbounded is answered with a failure. -/
theorem solves_of_unbounded (hn : p.Numbers p.size c a c₀ b) (hr : ofProgram p = .ok r)
    (hunbounded : r.solveBox (tabulate p.size l) (tabulate p.size u) = .unbounded) :
    Answer.failed.Solves p (tabulate p.size l) (tabulate p.size u) where
  verdict := Or.inr (Or.inr rfl)
  optimal h := nomatch h
  infeasible h := nomatch h
  failed _ x hx hrows value := by
    obtain ⟨z, rfl, hz⟩ := exists_of_mem_pointsWithin hx
    have hrow := (hn.rows_iff z).mp hrows
    rcases solveBox_of_inBounds (reads_of_ofProgram hn hr) hz hrow with
      ⟨-, g, hg⟩ | ⟨y, hsolved, -⟩
    · exact hg.exists_better hn hz hrow value
    · rw [hunbounded] at hsolved
      cases hsolved

/-- Bounds that leave something on each side are tightened to such bounds, each of them an old one
or a whole number. -/
theorem exists_moves_of_tighten (hp : p.WellFormed) (hlower : ∀ v ∈ p.lower, v < Scalar.inf)
    (hupper : ∀ v ∈ p.upper, -Scalar.inf < v) {node : Node Exact}
    (hvars : ∀ var ∈ node.vars, var < p.size) :
    ∃ l₀ u₀ l u, p.lower = tabulate p.size l₀ ∧ p.upper = tabulate p.size u₀ ∧
      node.tighten p.lower p.upper = .ok (tabulate p.size l, tabulate p.size u) ∧
      Node.Moves l₀ l ∧ Node.Moves u₀ u ∧ (∀ j, l j ≠ .posInf ∧ l j ≠ .nan) ∧
      ∀ j, u j ≠ .negInf ∧ u j ≠ .nan := by
  obtain ⟨l₀, hl₀, hlow⟩ := exists_eq_tabulate_of (P := fun v => v < Scalar.inf) hp.size_lower
    (ofRat_lt_posInf 0) hlower
  obtain ⟨u₀, hu₀, hhigh⟩ := exists_eq_tabulate_of (P := fun v => -Scalar.inf < v) hp.size_upper
    (negInf_lt_ofRat 0) hupper
  have hne : ∀ {v w : Exact}, v < w → v ≠ w := fun hlt heq => by
    rw [heq] at hlt
    exact Exact.lt_irrefl _ hlt
  have hvalidLower : ∀ j, l₀ j ≠ .nan := fun j hnan =>
    not_nan_lt _ (hnan ▸ hlow j)
  have hvalidUpper : ∀ j, u₀ j ≠ .nan := fun j hnan =>
    not_lt_nan _ (hnan ▸ hhigh j)
  obtain ⟨l, u, htightened, hl, hu, -⟩ := Node.tighten_tabulate hvars hvalidLower hvalidUpper
  rw [← hl₀, ← hu₀] at htightened
  exact ⟨l₀, u₀, l, u, hl₀, hu₀, htightened, hl, hu,
    fun j => ⟨hl.ne rfl (fun j => hne (hlow j)) j, hl.valid hvalidLower j⟩,
    fun j => ⟨hu.ne rfl (fun j => (hne (hhigh j)).symm) j, hu.valid hvalidUpper j⟩⟩

theorem exists_bounds_of_tighten (hp : p.WellFormed) (hlower : ∀ v ∈ p.lower, v < Scalar.inf)
    (hupper : ∀ v ∈ p.upper, -Scalar.inf < v) {node : Node Exact}
    (hvars : ∀ var ∈ node.vars, var < p.size) {lower upper : Array Exact}
    (htighten : node.tighten p.lower p.upper = .ok (lower, upper)) :
    ∃ l u, lower = tabulate p.size l ∧ upper = tabulate p.size u ∧ (∀ j, l j ≠ .posInf) ∧
      ∀ j, u j ≠ .negInf := by
  obtain ⟨_, _, l, u, -, -, htightened, -, -, hl, hu⟩ :=
    exists_moves_of_tighten hp hlower hupper hvars
  rw [htighten] at htightened
  obtain ⟨rfl, rfl⟩ := Prod.mk.inj (Except.ok.inj htightened)
  exact ⟨l, u, rfl, rfl, fun j => (hl j).1, fun j => (hu j).1⟩

end

/-- The answer for a node whose bounds do not cross is what solving over them comes to. -/
theorem answer_of_uncrossed {n : Nat} {l u : Nat → Exact} {r : OneRow Exact} {node : Node Exact}
    (htighten : node.tighten r.program.lower r.program.upper = .ok (tabulate n l, tabulate n u))
    (hle : ∀ j < n, l j ≤ u j) (cutoff : Option (Cutoff Exact)) :
    r.answer node cutoff =
      match r.solveBox (tabulate n l) (tabulate n u) with
      | .unbounded => .ok .failed
      | .infeasible => .ok .infeasible
      | .solved x =>
        if cutoff.any (·.excludes (r.program.objective x)) then .ok .infeasible
        else .ok (.optimal x (r.program.objective x)) := by
  have huncrossed : ¬(tabulate n fun j => (l j, u j)).any
      (fun b => decide (b.2 + boundTolerance < b.1)) = true := by
    rw [any_tabulate]
    rintro ⟨j, hj, hcrossed⟩
    exact not_add_tolerance_lt (hle j hj) (of_decide_eq_true hcrossed)
  rw [answer_of_tighten htighten, zip_tabulate, if_neg huncrossed]
  cases r.solveBox (tabulate n l) (tabulate n u) <;> rfl

/-- The relaxation of a built program with at most one row and a finite objective answers for every
node over its variables whose bounds, laid over those of the program, do not cross. With no cutoff
it says what is so, whichever bounds are infinite. -/
theorem answer_solves {sense : Sense} {costs : Array Exact} {steps : List (Program.Step Exact)}
    {p : Program Exact} {r : OneRow Exact} (hbuild : Program.build sense costs steps = .ok p)
    (hr : ofProgram p = .ok r) (hcosts : ∀ v ∈ costs, Scalar.isFinite v = true)
    (hconstant : Scalar.isFinite p.constant = true) (hlower : ∀ v ∈ p.lower, v < Scalar.inf)
    (hupper : ∀ v ∈ p.upper, -Scalar.inf < v) {node : Node Exact}
    (hvars : ∀ var ∈ node.vars, var < p.size) {lower upper : Array Exact}
    (htighten : node.tighten p.lower p.upper = .ok (lower, upper))
    (hle : ∀ (j : Nat) (l u : Exact), lower[j]? = some l → upper[j]? = some u → l ≤ u) :
    ∃ answer, r.answer node none = .ok answer ∧ answer.Solves p lower upper := by
  obtain ⟨hp, rfl, -⟩ := Program.of_build hbuild
  obtain ⟨hrows, hprogram, -⟩ := ofProgram_eq_ok hr
  obtain ⟨c, a, c₀, b, hn⟩ := Program.exists_numbers hp hcosts hconstant hrows
  obtain ⟨l, u, rfl, rfl, hl, hu⟩ := exists_bounds_of_tighten hp hlower hupper hvars htighten
  have hbounds : ∀ j < p.size, l j ≤ u j := fun j hj =>
    hle j _ _ (getElem?_tabulate_of_lt l hj) (getElem?_tabulate_of_lt u hj)
  rw [answer_of_uncrossed (hprogram ▸ htighten) hbounds, hprogram]
  rcases solveBox_exact (reads_of_ofProgram hn hr) hbounds (fun j _ => hl j) fun j _ => hu j with
    hunbounded | ⟨hinfeasible, hnone⟩ | ⟨x, hsolved, hx⟩
  · rw [hunbounded]
    exact ⟨_, rfl, solves_of_unbounded hn hr hunbounded⟩
  · rw [hinfeasible]
    exact ⟨_, rfl, solves_of_infeasible hn hnone⟩
  · rw [hsolved]
    exact ⟨_, rfl, hx.solves hn⟩

/-! ## The least `-x - y` for `x + 2 * y ≤ 4`, with `x` up to three and `y` up to four -/

namespace Saturated

def steps : List (Program.Step Exact) :=
  [.bounds 0 .negInf (.ofRat 3), .bounds 1 (.ofRat 0) (.ofRat 5), .integer 1,
    .row #[.ofRat 1, .ofRat 2] (.ofRat 4)]

/-- The node that cuts `y` down to four. -/
def node : Node Exact where
  vars := #[1]
  cuts := #[{ atMost := some 4 }]
  estimate := .negInf
  depth := 1

/-- The pivot `x` goes to three, and `y` takes up the rest of the row. -/
theorem answer_solves_saturated : ∃ p r lower upper answer,
    Program.build .minimise #[.ofRat (-1), .ofRat (-1)] steps = .ok p ∧ ofProgram p = .ok r ∧
    node.tighten p.lower p.upper = .ok (lower, upper) ∧ r.answer node none = .ok answer ∧
    answer.Solves p lower upper ∧ answer.verdict = .optimal ∧
    answer.point = #[.ofRat 3, .ofRat (1 / 2)] := by
  obtain ⟨p, hbuild, hp⟩ : ∃ p,
      Program.build .minimise #[.ofRat (-1), .ofRat (-1)] steps = .ok p ∧
      (p.constant, p.lower, p.upper, p.size, p.rows.size) =
        (.ofRat 0, #[.negInf, .ofRat 0], #[.ofRat 3, .ofRat 5], 2, 1) := by
    refine exists_of_toOption_map ?_
    decide +kernel
  obtain ⟨hconstant, hlower, hupper, hsize, hrows⟩ : p.constant = .ofRat 0 ∧
      p.lower = #[.negInf, .ofRat 0] ∧ p.upper = #[.ofRat 3, .ofRat 5] ∧ p.size = 2 ∧
      p.rows.size = 1 := by simpa only [Prod.mk.injEq] using hp
  have hr : ofProgram p = .ok _ := if_neg (by rw [hrows]; decide)
  have htighten : node.tighten p.lower p.upper =
      .ok (#[.negInf, .ofRat 0], #[.ofRat 3, .ofRat 4]) := by
    rw [hlower, hupper]
    rfl
  have hrun : ((Program.build .minimise #[.ofRat (-1), .ofRat (-1)] steps >>= fun p =>
      ofProgram p >>= fun r => r.answer node none).toOption.map
      fun answer => (answer.verdict, answer.point)) =
      some (.optimal, #[.ofRat 3, .ofRat (1 / 2)]) := by decide +kernel
  simp only [hbuild, hr, bind, Except.bind] at hrun
  obtain ⟨answer, hanswer, hfound⟩ := exists_of_toOption_map hrun
  have hle : ∀ (j : Nat) (l u : Exact), (#[.negInf, .ofRat 0] : Array Exact)[j]? = some l →
      (#[.ofRat 3, .ofRat 4] : Array Exact)[j]? = some u → l ≤ u
    | 0, l, u, hl, hu => by
      rw [← Option.some.inj hl, ← Option.some.inj hu]
      exact negInf_le_ofRat 3
    | 1, l, u, hl, hu => by
      rw [← Option.some.inj hl, ← Option.some.inj hu]
      exact (ofRat_le 0 4).mpr (by norm_num)
    | _ + 2, _, _, hl, _ => nomatch hl
  obtain ⟨answer', hanswer', hsolves⟩ := answer_solves hbuild hr (by simp) (by rw [hconstant]; rfl)
    (by rw [hlower]; simp [Scalar.inf]) (by rw [hupper]; simp [Scalar.inf])
    (by rw [hsize]; simp [node]) htighten hle
  obtain rfl := Except.ok.inj (hanswer.symm.trans hanswer')
  exact ⟨p, _, _, _, answer, hbuild, hr, htighten, hanswer, hsolves, congrArg Prod.fst hfound,
    congrArg Prod.snd hfound⟩

end Saturated

end OneRow

end BranchBound
