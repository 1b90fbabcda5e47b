import BranchBound.Proofs.OneRow.Corners
import BranchBound.Proofs.OneRow.Exactness

/-!
# Fractions

Over bounds that are whole or infinite the relaxation of a program with at most one row puts one
variable at most at a value that is not whole (`one_fraction_at_most`). That variable is in the row,
it is strictly between its bounds, and the row holds with equality.

A variable off the row is at a bound or at zero. One in the row is at an end of its range or at
zero, but for the one that takes up what is left of the right-hand side: the pivot, or the last one
that is raised (`Cornered`). Which of the two it is does not matter here, and neither does the row,
whose numbers need not be whole.
-/

namespace BranchBound

open Exact Finset

/-- Whether a variable is in a row of a program and strictly between bounds, while the row holds
with equality at a point. -/
structure Program.Absorbs (p : Program Exact) (lower upper point : Array Exact) (j : Nat) : Prop where
  between : ∃ l u x, lower[j]? = some l ∧ upper[j]? = some u ∧ point[j]? = some x ∧ l < x ∧ x < u
  tight : ∃ row ∈ p.rows, (∃ coef, row.coefs[j]? = some coef ∧ coef ≠ .ofRat 0) ∧
    row.activity point = row.rhs

namespace OneRow

/-! ## Whole bounds -/

section

variable {n : Nat} {l u l₀ : Nat → Exact} {j : Nat}

theorem WholeBounds.of_moves (h : WholeBounds n l₀) (hmoves : Node.Moves l₀ l) :
    WholeBounds n l := by
  intro j hj q hq
  rcases hmoves j with hsame | ⟨k, hk⟩
  · exact h j hj q (hsame.symm.trans hq)
  · rw [hk] at hq
    exact mem_wholes.mpr ⟨k, (Exact.ofRat.inj hq).symm⟩

theorem wholeBounds_of_entries
    (h : ∀ v ∈ tabulate n l, Scalar.isFinite v = true → ∃ k : ℤ, v = .ofRat k) :
    WholeBounds n l := by
  intro j hj q hq
  obtain ⟨k, hk⟩ := h (l j) (mem_tabulate.mpr ⟨j, hj, rfl⟩) (by rw [hq, isFinite_ofRat])
  exact mem_wholes.mpr ⟨k, Exact.ofRat.inj (hq.symm.trans hk)⟩

/-- Whole bounds that cross by no more than the tolerance do not cross. -/
theorem le_of_not_crossed (hl : WholeBounds n l) (hu : WholeBounds n u) (hj : j < n)
    (hlower : l j ≠ .posInf ∧ l j ≠ .nan) (hupper : u j ≠ .negInf ∧ u j ≠ .nan)
    (h : ¬u j + boundTolerance < l j) : l j ≤ u j := by
  cases hlj : l j with
  | posInf => exact absurd hlj hlower.1
  | nan => exact absurd hlj hlower.2
  | negInf => cases huj : u j <;> simp_all
  | ofRat q =>
    cases huj : u j with
    | negInf => exact absurd huj hupper.1
    | nan => exact absurd huj hupper.2
    | posInf => exact ofRat_le_posInf q
    | ofRat q' =>
      rw [hlj, huj, boundTolerance_eq, ofRat_add, ofRat_lt, not_lt] at h
      obtain ⟨k, rfl⟩ := mem_wholes.mp (hl j hj q hlj)
      obtain ⟨k', rfl⟩ := mem_wholes.mp (hu j hj q' huj)
      have hlt : k < k' + 1 := by
        have : (k : ℚ) < k' + 1 := by linarith
        exact_mod_cast this
      rw [ofRat_le]
      exact_mod_cast Int.lt_add_one_iff.mp hlt

end

/-! ## The point over a box -/

section

variable {n : Nat} {d a x y : Nat → ℚ} {b : ℚ} {l u : Nat → Exact} {j : Nat}

/-- The value at an end of the range of an activity, or at zero, is whole if the bounds are. -/
theorem whole_of_atEnd (hl : WholeBounds n l) (hu : WholeBounds n u) (hj : j < n) (hne : a j ≠ 0)
    {z : ℚ} (h : (column d a l u j).AtEnd (a j * z)) : z ∈ wholes := by
  have hend : ∀ {v : Exact}, v = l j ∨ v = u j → .ofRat (a j) * v = .ofRat (a j * z) →
      z ∈ wholes := by
    intro v hv hy
    have heq := eq_ofRat_div_of_mul_eq hne hy
    rw [mul_div_cancel_left₀ z hne] at heq
    rcases hv with rfl | rfl
    · exact hl j hj z heq
    · exact hu j hj z heq
  unfold Column.AtEnd Column.low Column.high column at h
  rcases h with hlow | hhigh | hzero
  · split at hlow
    · exact hend (Or.inl rfl) hlow
    · exact hend (Or.inr rfl) hlow
  · split at hhigh
    · exact hend (Or.inr rfl) hhigh
    · exact hend (Or.inl rfl) hhigh
  · rw [(mul_eq_zero.mp hzero).resolve_left hne]
    exact wholes.zero_mem

/-- A point that has cornered activities in the row and best values off it has one coordinate at
most that is not whole. -/
theorem Cornered.whole_or_inside (h : Cornered b (rowColumns n d a l u) y)
    (hx : ∀ j < n, a j ≠ 0 → a j * x j = y j)
    (hrest : ∀ j < n, a j = 0 → (column d a l u j).resting = .ofRat (x j))
    (hl : WholeBounds n l) (hu : WholeBounds n u) :
    ∃ k, ∀ j < n, x j ∈ wholes ∨ j = k ∧ a j ≠ 0 ∧ (l j < .ofRat (x j) ∧ .ofRat (x j) < u j) ∧
      ∑ i ∈ range n, a i * x i = b := by
  obtain ⟨k, hk⟩ := h
  have htotal : ((rowColumns n d a l u).map fun c => y c.var).sum = ∑ i ∈ range n, a i * x i :=
    sum_rowColumns (fun i hi hne => (hx i hi hne).symm) fun i _ hzero => by rw [hzero, zero_mul]
  refine ⟨k, fun j hj => ?_⟩
  by_cases hzero : a j = 0
  · exact Or.inl (whole_resting hj hl hu (hrest j hj hzero))
  · have hcolumn := hk _ (mem_rowColumns.mpr ⟨j, hj, hzero, rfl⟩)
    rw [show (column d a l u j).var = j from rfl, ← hx j hj hzero] at hcolumn
    rcases hcolumn with hend | ⟨hvar, hinside, htight⟩
    · exact Or.inl (whole_of_atEnd hl hu hj hzero hend)
    · exact Or.inr ⟨hvar, hzero, (inside_column_iff hzero).mp hinside, htotal.symm.trans htight⟩

/-- The row of a program is used up at a point where its activity is the right-hand side. -/
theorem absorbs_of_inside {p : Program Exact} {c : Nat → ℚ} {c₀ : ℚ}
    (hn : p.Numbers p.size c a c₀ b) (hj : j < p.size) (hne : a j ≠ 0)
    (hinside : l j < .ofRat (x j) ∧ .ofRat (x j) < u j)
    (htotal : ∑ i ∈ range p.size, a i * x i = b) :
    p.Absorbs (tabulate p.size l) (tabulate p.size u) (vector p.size x) j where
  between := ⟨l j, u j, .ofRat (x j), getElem?_tabulate_of_lt l hj, getElem?_tabulate_of_lt u hj,
    getElem?_tabulate_of_lt _ hj, hinside⟩
  tight := by
    rcases hn.row with hrow | ⟨-, hzero, -⟩
    · refine ⟨⟨vector p.size a, .ofRat b⟩, by simp [hrow], ⟨.ofRat (a j), ?_, fun heq => ?_⟩, ?_⟩
      · exact getElem?_tabulate_of_lt _ hj
      · exact hne (Exact.ofRat.inj heq)
      · rw [Row.activity, dot_vector, htotal]
    · exact absurd (hzero j hj) hne

end

/-- The relaxation of a built program with at most one row, a finite objective and bounds that are
whole or infinite answers for every node over its variables. In an optimal answer one variable at
most has a value that is not whole. It has a coefficient in the row and is strictly between its
tightened bounds, and the row holds with equality. -/
theorem one_fraction_at_most {sense : Sense} {costs : Array Exact}
    {steps : List (Program.Step Exact)} {p : Program Exact} {r : OneRow Exact}
    (hbuild : Program.build sense costs steps = .ok p) (hr : ofProgram p = .ok r)
    (hcosts : ∀ v ∈ costs, Scalar.isFinite v = true) (hconstant : Scalar.isFinite p.constant = true)
    (hlower : ∀ v ∈ p.lower, v < Scalar.inf) (hupper : ∀ v ∈ p.upper, -Scalar.inf < v)
    (hwholeLower : ∀ v ∈ p.lower, Scalar.isFinite v = true → ∃ k : ℤ, v = .ofRat k)
    (hwholeUpper : ∀ v ∈ p.upper, Scalar.isFinite v = true → ∃ k : ℤ, v = .ofRat k)
    {node : Node Exact} (hvars : ∀ var ∈ node.vars, var < p.size) (cutoff : Option (Cutoff Exact)) :
    ∃ lower upper answer, node.tighten p.lower p.upper = .ok (lower, upper) ∧
      r.answer node cutoff = .ok answer ∧
      (answer.verdict = .optimal → answer.point.size = p.size ∧
        ∃ k, ∀ (j : Nat) (v : Exact), answer.point[j]? = some v →
          (∃ m : ℤ, v = .ofRat m) ∨ j = k ∧ p.Absorbs lower upper answer.point j) := by
  obtain ⟨hp, rfl, -⟩ := Program.of_build hbuild
  obtain ⟨hrows, hprogram, -⟩ := ofProgram_eq_ok hr
  obtain ⟨c, a, c₀, b, hn⟩ := Program.exists_numbers hp hcosts hconstant hrows
  obtain ⟨l₀, u₀, l, u, hl₀, hu₀, htighten, hmovesLower, hmovesUpper, hl, hu⟩ :=
    exists_moves_of_tighten hp hlower hupper hvars
  rw [hl₀] at hwholeLower
  rw [hu₀] at hwholeUpper
  have hwl := (wholeBounds_of_entries hwholeLower).of_moves hmovesLower
  have hwu := (wholeBounds_of_entries hwholeUpper).of_moves hmovesUpper
  have htightened : node.tighten r.program.lower r.program.upper =
      .ok (tabulate p.size l, tabulate p.size u) := by rw [hprogram, htighten]
  obtain ⟨answer, hanswer⟩ := exists_answer_of_tighten htightened cutoff
  refine ⟨_, _, answer, htighten, hanswer, fun hoptimal => ?_⟩
  obtain ⟨hsolved, huncrossed⟩ := solved_of_answer htightened hanswer (by rw [hoptimal]; rfl)
  have hle : ∀ j < p.size, l j ≤ u j := fun j hj =>
    le_of_not_crossed hwl hwu hj (hl j) (hu j) fun hcrossed => huncrossed (by
      rw [zip_tabulate, any_tabulate]
      exact ⟨j, hj, decide_eq_true hcrossed⟩)
  rcases solveBox_placed (reads_of_ofProgram hn hr) hle (fun j _ => (hl j).1) fun j _ => (hu j).1 with
    hunbounded | ⟨hinfeasible, -⟩ | ⟨x, _, y, _, hx, -, hcorner, hactivity, hrest⟩
  · rw [hunbounded] at hsolved
    cases hsolved
  · rw [hinfeasible] at hsolved
    cases hsolved
  rw [hx] at hsolved
  rw [← Placement.solved.inj hsolved]
  obtain ⟨k, hk⟩ := hcorner.whole_or_inside hactivity hrest hwl hwu
  refine ⟨size_tabulate _, k, fun j v hv => ?_⟩
  obtain ⟨hj, rfl⟩ := getElem?_tabulate_eq_some.mp hv
  rcases hk j hj with hwhole | ⟨hvar, hne, hinside, htotal⟩
  · obtain ⟨m, hm⟩ := mem_wholes.mp hwhole
    exact Or.inl ⟨m, congrArg _ hm⟩
  · exact Or.inr ⟨hvar, absorbs_of_inside hn hj hne hinside htotal⟩

/-! ## The least `-x - y` for `x + 2 * y ≤ 4`, with `x` up to three and `y` up to four -/

namespace Saturated

/-- The second variable takes up the rest of the row, and is the one that is not whole. -/
theorem one_fraction_of_saturated : ∃ p r lower upper answer,
    Program.build .minimise #[.ofRat (-1), .ofRat (-1)] steps = .ok p ∧ ofProgram p = .ok r ∧
    node.tighten p.lower p.upper = .ok (lower, upper) ∧ r.answer node none = .ok answer ∧
    answer.point = #[.ofRat 3, .ofRat (1 / 2)] ∧ p.Absorbs lower upper answer.point 1 := by
  obtain ⟨p, hbuild, hp⟩ : ∃ p,
      Program.build .minimise #[.ofRat (-1), .ofRat (-1)] steps = .ok p ∧
      (p.constant, p.lower, p.upper, p.size, p.rows.size) =
        (.ofRat 0, #[.negInf, .ofRat 0], #[.ofRat 3, .ofRat 5], 2, 1) := by
    refine exists_of_toOption_map ?_
    decide +kernel
  obtain ⟨hconstant, hlower, hupper, hsize, hrows⟩ : p.constant = .ofRat 0 ∧
      p.lower = #[.negInf, .ofRat 0] ∧ p.upper = #[.ofRat 3, .ofRat 5] ∧ p.size = 2 ∧
      p.rows.size = 1 := by simpa only [Prod.mk.injEq] using hp
  have hr : ofProgram p = .ok _ := if_neg (by rw [hrows]; decide)
  have hrun : ((Program.build .minimise #[.ofRat (-1), .ofRat (-1)] steps >>= fun p =>
      ofProgram p >>= fun r => r.answer node none).toOption.map
      fun answer => (answer.verdict, answer.point)) =
      some (.optimal, #[.ofRat 3, .ofRat (1 / 2)]) := by decide +kernel
  simp only [hbuild, hr, bind, Except.bind] at hrun
  obtain ⟨answer, hanswer, hfound⟩ := exists_of_toOption_map hrun
  have hpoint : answer.point = #[.ofRat 3, .ofRat (1 / 2)] := congrArg Prod.snd hfound
  have hvars : ∀ var ∈ node.vars, var < p.size := by
    rw [hsize]
    simp [node]
  obtain ⟨lower, upper, answer', htighten, hanswer', hfraction⟩ := one_fraction_at_most hbuild hr
    (by simp) (by rw [hconstant]; rfl) (by rw [hlower]; simp [Scalar.inf])
    (by rw [hupper]; simp [Scalar.inf])
    (by rw [hlower]; simpa [Scalar.isFinite] using ⟨0, rfl⟩)
    (by rw [hupper]; simpa [Scalar.isFinite] using ⟨⟨3, rfl⟩, 5, rfl⟩)
    hvars none
  obtain rfl := Except.ok.inj (hanswer.symm.trans hanswer')
  obtain ⟨-, k, hk⟩ := hfraction (congrArg Prod.fst hfound)
  refine ⟨p, _, lower, upper, answer, hbuild, hr, htighten, hanswer, hpoint, ?_⟩
  rcases hk 1 (.ofRat (1 / 2)) (by rw [hpoint]; rfl) with ⟨m, hm⟩ | ⟨-, habsorbs⟩
  · have hdouble : (1 : ℚ) = ((2 * m : ℤ) : ℚ) := by
      have hhalf := Exact.ofRat.inj hm
      push_cast
      linarith
    have hodd : (1 : ℤ) = 2 * m := by exact_mod_cast hdouble
    omega
  · exact habsorbs

end Saturated

end OneRow

end BranchBound
