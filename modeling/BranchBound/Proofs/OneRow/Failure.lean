import BranchBound.Proofs.OneRow.Exactness

/-!
# Failures of the relaxation

The relaxation of a program with at most one row fails where the objective is unbounded, and says
that a box is infeasible where the row is out of reach (`failed_means_unbounded`). There is one
exception. The variables that are in no row are placed before the row is looked at, and if one of
them has no best value in its range, that ends it (`Program.RunsFree`): the answer is a failure, even
if no point of the box is within the row (`OneRow.Beyond.failed_out_of_reach`).

A variable whose activity has no lowest value brings every row within reach, so wherever the row is
asked about before a failure, the failure is right.
-/

namespace BranchBound

open Exact Finset

/-! ## What an answer should say -/

namespace Program

variable (p : Program Exact) (lower upper : Array Exact)

/-- Whether some variable that is in no row can be moved on without end at a gain. -/
def RunsFree : Prop :=
  ∃ (j : Nat) (cost : Exact), p.costs[j]? = some cost ∧
    (∀ row ∈ p.rows, row.coefs[j]? = some (.ofRat 0)) ∧
    (p.sense.better cost (.ofRat 0) = true ∧ upper[j]? = some .posInf ∨
      p.sense.better (.ofRat 0) cost = true ∧ lower[j]? = some .negInf)

/-- Whether points of a box that are within the rows have better values than any given one. -/
def Unbounded : Prop :=
  ∀ value : ℚ, ∃ x ∈ pointsWithin lower upper, (∀ row ∈ p.rows, row.activity x ≤ row.rhs) ∧
    p.sense.better (p.objective x) (.ofRat value) = true

/-- Whether a box is beyond a row by more than the tolerance. -/
def Unreachable : Prop :=
  ∃ row ∈ p.rows, ∀ x ∈ pointsWithin lower upper,
    row.rhs + 1e-9 * (1.0 + Scalar.abs row.rhs) < row.activity x

end Program

namespace OneRow

section

variable {n : Nat} {c d a z : Nat → ℚ} {c₀ b : ℚ} {l u : Nat → Exact} {j : Nat}

/-! ## Variables off the row -/

/-- A range that leaves something on each side has no best value if its better end is infinite. -/
theorem resting_not_finite_iff (hl : l j ≠ .posInf ∧ l j ≠ .nan) (hu : u j ≠ .negInf ∧ u j ≠ .nan) :
    Scalar.isFinite (column d a l u j).resting = false ↔
      d j < 0 ∧ u j = .posInf ∨ 0 < d j ∧ l j = .negInf := by
  unfold Column.resting column
  simp only [zero_eq, ofRat_lt]
  rcases lt_trichotomy (d j) 0 with hneg | hzero | hpos
  · rw [if_neg hneg.not_gt, if_pos hneg]
    cases hu' : u j <;> simp_all [Scalar.isFinite, hneg.not_gt]
  · rw [hzero]
    cases hl' : l j <;> cases hu' : u j <;> simp_all [Scalar.isFinite]
  · rw [if_pos hpos]
    cases hl' : l j <;> simp_all [Scalar.isFinite, hpos.not_gt]

/-- A program has a variable that runs free if it has one off the row without a best value. -/
theorem runsFree_iff {p : Program Exact} (hn : p.Numbers p.size c a c₀ b)
    (hl : ∀ j < p.size, l j ≠ .posInf ∧ l j ≠ .nan) (hu : ∀ j < p.size, u j ≠ .negInf ∧ u j ≠ .nan) :
    p.RunsFree (tabulate p.size l) (tabulate p.size u) ↔
      ∃ j < p.size, a j = 0 ∧
        Scalar.isFinite (column (p.sense.signed c) a l u j).resting = false := by
  have hrows : ∀ j < p.size, (∀ row ∈ p.rows, row.coefs[j]? = some (.ofRat 0)) ↔ a j = 0 := by
    intro j hj
    rcases hn.row with hone | ⟨hnone, hzero, -⟩
    · rw [hone]
      simp [vector, getElem?_tabulate_of_lt _ hj]
    · rw [hnone]
      simp [hzero j hj]
  have hraises : ∀ j, p.sense.better (ofRat (c j)) (ofRat 0) = true ↔ p.sense.signed c j < 0 := by
    intro j
    cases p.sense <;> simp [Sense.better, Sense.signed, ofRat_lt]
  have hlowers : ∀ j, p.sense.better (ofRat 0) (ofRat (c j)) = true ↔ 0 < p.sense.signed c j := by
    intro j
    cases p.sense <;> simp [Sense.better, Sense.signed, ofRat_lt]
  constructor
  · rintro ⟨j, cost, hcost, hoff, hends⟩
    rw [hn.costs] at hcost
    have hj : j < p.size := by
      have hlt := (Array.getElem?_eq_some_iff.mp hcost).1
      rwa [vector, size_tabulate] at hlt
    rw [vector, getElem?_tabulate_of_lt _ hj] at hcost
    rw [← Option.some.inj hcost, hraises, hlowers, getElem?_tabulate_of_lt l hj,
      getElem?_tabulate_of_lt u hj, Option.some.injEq, Option.some.injEq] at hends
    exact ⟨j, hj, (hrows j hj).mp hoff, (resting_not_finite_iff (hl j hj) (hu j hj)).mpr hends⟩
  · rintro ⟨j, hj, hzero, hnot⟩
    refine ⟨j, .ofRat (c j), ?_, (hrows j hj).mpr hzero, ?_⟩
    · rw [hn.costs, vector, getElem?_tabulate_of_lt _ hj]
    · rw [hraises, hlowers, getElem?_tabulate_of_lt l hj, getElem?_tabulate_of_lt u hj,
        Option.some.injEq, Option.some.injEq]
      exact (resting_not_finite_iff (hl j hj) (hu j hj)).mp hnot

/-! ## Boxes beyond the row -/

/-- A pivot brings the row within reach: its activity can be given up without end. -/
theorem exists_inBounds_of_pivot {pivot : Column Exact}
    (hpivot : pivot? (rowColumns n d a l u) = some pivot) (hz : InBounds n l u z) :
    ∃ y, InBounds n l u y ∧ ∑ j ∈ range n, a j * y j ≤ b := by
  obtain ⟨hmem, hlow⟩ := of_pivot?_eq_some hpivot
  obtain ⟨j, hj, hne, rfl⟩ := mem_rowColumns.mp hmem
  have hopens := opens_of_low hne hlow
  have hexcess := le_max_right 0 (∑ i ∈ range n, a i * z i - b)
  refine ⟨_, inBounds_of_opens (fun i _ => hopens.single i) hz
    (le_max_left 0 (∑ i ∈ range n, a i * z i - b)), ?_⟩
  have hmoved : ∀ t : ℚ, ∑ i ∈ range n, a i * (z i + t * (Pi.single j (-1 / a j) : Nat → ℚ) i) =
      ∑ i ∈ range n, a i * z i - t := by
    intro t
    have hstep := sum_mul_single a hj (-1 / a j)
    rw [mul_div_cancel₀ _ hne] at hstep
    calc ∑ i ∈ range n, a i * (z i + t * (Pi.single j (-1 / a j) : Nat → ℚ) i)
        = ∑ i ∈ range n, a i * z i +
            t * ∑ i ∈ range n, a i * (Pi.single j (-1 / a j) : Nat → ℚ) i := by
          rw [mul_sum, ← sum_add_distrib]
          exact sum_congr rfl fun i _ => by ring
      _ = ∑ i ∈ range n, a i * z i - t := by
          rw [hstep]
          ring
  rw [hmoved]
  linarith

variable {r : OneRow Exact} (h : r.Reads n d a b) (hle : ∀ j < n, l j ≤ u j)
  (hl : ∀ j < n, l j ≠ .posInf) (hu : ∀ j < n, u j ≠ .negInf)
  (hnone : ∀ z, InBounds n l u z → b < ∑ j ∈ range n, a j * z j)

include h hle hl hu hnone

/-- If no point of a box is within the row, and every variable off the row has a best value, solving
does not find it unbounded. -/
theorem solveBox_ne_unbounded
    (hrests : ∀ j < n, a j = 0 → Scalar.isFinite (column d a l u j).resting = true) :
    r.solveBox (tabulate n l) (tabulate n u) ≠ .unbounded := by
  obtain ⟨z, hz⟩ := exists_inBounds hle hl hu
  have hpivot : pivot? (rowColumns n d a l u) = none := by
    cases hp : pivot? (rowColumns n d a l u) with
    | none => rfl
    | some pivot =>
      obtain ⟨y, hy, hrow⟩ := exists_inBounds_of_pivot (b := b) hp hz
      exact absurd hrow (not_le.mpr (hnone y hy))
  have hlows : ∀ j < n, a j ≠ 0 → ∃ lo, (column d a l u j).low = .ofRat lo := by
    intro j hj hne
    have hmem : column d a l u j ∈ rowColumns n d a l u := mem_rowColumns.mpr ⟨j, hj, hne, rfl⟩
    exact (ranged_of_mem hz _ hmem).low_cases.resolve_right (low_ne_negInf hpivot hmem)
  have hrests' : ∀ j < n, a j = 0 → ∃ q, (column d a l u j).resting = .ofRat q :=
    fun j hj hzero => isFinite_iff.mp (hrests j hj hzero)
  choose! lo hlo using hlows
  choose! rest hrest using hrests'
  intro hunbounded
  rcases solveBox_cases h hle hl hu hlo hrest with ⟨hinfeasible, -⟩ | ⟨x, hsolved, -⟩
  · rw [hunbounded] at hinfeasible
    cases hinfeasible
  · rw [hunbounded] at hsolved
    cases hsolved

end

/-! ## The answers -/

section

variable {p : Program Exact} {r : OneRow Exact} {c a z : Nat → ℚ} {c₀ b : ℚ} {l u : Nat → Exact}

/-- A box beyond the row has no point within it, not even up to the allowance. -/
theorem lt_of_unreachable (hn : p.Numbers p.size c a c₀ b)
    (hbeyond : p.Unreachable (tabulate p.size l) (tabulate p.size u)) (hz : InBounds p.size l u z) :
    b + allowance b < ∑ j ∈ range p.size, a j * z j := by
  obtain ⟨row, hrow, hlt⟩ := hbeyond
  rcases hn.row with hone | ⟨hnone, -⟩
  · rw [hone, List.mem_toArray, List.mem_singleton] at hrow
    have hz' := hlt _ (vector_mem_pointsWithin_iff.mpr hz)
    rw [hrow] at hz'
    simp only [Row.activity, dot_vector, ofRat_allowance, ofRat_add, ofRat_lt] at hz'
    exact hz'
  · rw [hnone] at hrow
    exact absurd hrow (Array.not_mem_empty row)

/-- Solving finds a box unbounded only if the program is, or if a variable runs free while no point
of the box is within the row. -/
theorem of_solveBox_unbounded (hn : p.Numbers p.size c a c₀ b) (hr : ofProgram p = .ok r)
    (hle : ∀ j < p.size, l j ≤ u j) (hl : ∀ j, l j ≠ .posInf) (hu : ∀ j, u j ≠ .negInf)
    (hunbounded : r.solveBox (tabulate p.size l) (tabulate p.size u) = .unbounded) :
    p.Unbounded (tabulate p.size l) (tabulate p.size u) ∨
      p.RunsFree (tabulate p.size l) (tabulate p.size u) ∧
        ∀ x ∈ pointsWithin (tabulate p.size l) (tabulate p.size u),
          ¬∀ row ∈ p.rows, row.activity x ≤ row.rhs := by
  have hreads := reads_of_ofProgram hn hr
  by_cases hwithin : ∃ z, InBounds p.size l u z ∧ ∑ j ∈ range p.size, a j * z j ≤ b
  · obtain ⟨z, hz, hrow⟩ := hwithin
    rcases solveBox_of_inBounds hreads hz hrow with ⟨-, g, hg⟩ | ⟨x, hsolved, -⟩
    · exact Or.inl (hg.exists_better hn hz hrow)
    · rw [hunbounded] at hsolved
      cases hsolved
  · push Not at hwithin
    refine Or.inr ⟨?_, fun x hx hrows => ?_⟩
    · by_contra hfree
      rw [runsFree_iff hn (fun j hj => ⟨hl j, (valid_of_le (hle j hj)).1⟩)
        fun j hj => ⟨hu j, (valid_of_le (hle j hj)).2⟩] at hfree
      push Not at hfree
      exact solveBox_ne_unbounded hreads hle (fun j _ => hl j) (fun j _ => hu j) hwithin
        (fun j hj hzero => by simpa using hfree j hj hzero) hunbounded
    · obtain ⟨z, rfl, hz⟩ := exists_of_mem_pointsWithin hx
      exact absurd ((hn.rows_iff z).mp hrows) (not_le.mpr (hwithin z hz))

/-- A box beyond the row is found infeasible, unless a variable runs free. -/
theorem solveBox_of_unreachable (hn : p.Numbers p.size c a c₀ b) (hr : ofProgram p = .ok r)
    (hle : ∀ j < p.size, l j ≤ u j) (hl : ∀ j, l j ≠ .posInf) (hu : ∀ j, u j ≠ .negInf)
    (hbeyond : p.Unreachable (tabulate p.size l) (tabulate p.size u))
    (hfree : ¬p.RunsFree (tabulate p.size l) (tabulate p.size u)) :
    r.solveBox (tabulate p.size l) (tabulate p.size u) = .infeasible := by
  have hbounds : ∃ z, InBounds p.size l u z :=
    exists_inBounds hle (fun j _ => hl j) fun j _ => hu j
  rcases solveBox_exact (reads_of_ofProgram hn hr) hle (fun j _ => hl j) fun j _ => hu j with
    hunbounded | ⟨hinfeasible, -⟩ | ⟨x, -, hx⟩
  · rcases of_solveBox_unbounded hn hr hle hl hu hunbounded with hvalues | ⟨hruns, -⟩
    · obtain ⟨x, hx, hrows, -⟩ := hvalues 0
      obtain ⟨z, rfl, hz⟩ := exists_of_mem_pointsWithin hx
      have hlt := lt_of_unreachable hn hbeyond hz
      have hle := (hn.rows_iff z).mp hrows
      linarith [allowance_nonneg b]
    · exact absurd hruns hfree
  · exact hinfeasible
  · have hlt := lt_of_unreachable hn hbeyond hx.inBounds
    exact absurd hx.row_le (not_le.mpr hlt)

end

/-- The relaxation fails where the objective is unbounded. For a built program with at most one row
and a finite objective, and a node whose bounds do not cross, a failure means that points of the box
within the row have better values than any given one, and a row that is out of reach is answered as
infeasible, whatever the cutoff. The exception are boxes in which a variable that is in no row runs
free: there the answer is a failure even if no point of the box is within the row. -/
theorem failed_means_unbounded {sense : Sense} {costs : Array Exact}
    {steps : List (Program.Step Exact)} {p : Program Exact} {r : OneRow Exact}
    (hbuild : Program.build sense costs steps = .ok p) (hr : ofProgram p = .ok r)
    (hcosts : ∀ v ∈ costs, Scalar.isFinite v = true) (hconstant : Scalar.isFinite p.constant = true)
    (hlower : ∀ v ∈ p.lower, v < Scalar.inf) (hupper : ∀ v ∈ p.upper, -Scalar.inf < v)
    {node : Node Exact} (hvars : ∀ var ∈ node.vars, var < p.size) {lower upper : Array Exact}
    (htighten : node.tighten p.lower p.upper = .ok (lower, upper))
    (hle : ∀ (j : Nat) (l u : Exact), lower[j]? = some l → upper[j]? = some u → l ≤ u)
    (cutoff : Option (Cutoff Exact)) :
    ∃ answer, r.answer node cutoff = .ok answer ∧
      (answer.verdict = .failed → p.Unbounded lower upper ∨ p.RunsFree lower upper ∧
        ∀ x ∈ pointsWithin lower upper, ¬∀ row ∈ p.rows, row.activity x ≤ row.rhs) ∧
      (p.Unreachable lower upper → ¬p.RunsFree lower upper → answer.verdict = .infeasible) ∧
      (p.RunsFree lower upper → answer.verdict = .failed) := by
  obtain ⟨hp, rfl, -⟩ := Program.of_build hbuild
  obtain ⟨hrows, hprogram, -⟩ := ofProgram_eq_ok hr
  obtain ⟨c, a, c₀, b, hn⟩ := Program.exists_numbers hp hcosts hconstant hrows
  obtain ⟨l, u, rfl, rfl, hl, hu⟩ := exists_bounds_of_tighten hp hlower hupper hvars htighten
  have hbounds : ∀ j < p.size, l j ≤ u j := fun j hj =>
    hle j _ _ (getElem?_tabulate_of_lt l hj) (getElem?_tabulate_of_lt u hj)
  have hinfeasible := solveBox_of_unreachable hn hr hbounds hl hu
  have hfailed := of_solveBox_unbounded hn hr hbounds hl hu
  have hruns : p.RunsFree (tabulate p.size l) (tabulate p.size u) →
      r.solveBox (tabulate p.size l) (tabulate p.size u) = .unbounded := by
    rw [runsFree_iff hn (fun j hj => ⟨hl j, (valid_of_le (hbounds j hj)).1⟩)
      fun j hj => ⟨hu j, (valid_of_le (hbounds j hj)).2⟩]
    rintro ⟨j, hj, hzero, hnot⟩
    exact solveBox_of_resting (reads_of_ofProgram hn hr) hj hzero (by rw [hnot]; simp)
  rw [answer_of_uncrossed (hprogram ▸ htighten) hbounds]
  -- the answer says what solving came to, but for a solution that the cutoff excludes
  cases hsolve : r.solveBox (tabulate p.size l) (tabulate p.size u) with
  | unbounded =>
    refine ⟨_, rfl, fun _ => hfailed hsolve, fun hbeyond hfree => ?_, fun _ => rfl⟩
    rw [hsolve] at hinfeasible
    cases hinfeasible hbeyond hfree
  | infeasible =>
    refine ⟨_, rfl, fun h => (by cases h), fun _ _ => rfl, fun hfree => ?_⟩
    rw [hsolve] at hruns
    cases hruns hfree
  | solved x =>
    rw [hsolve] at hinfeasible hruns
    dsimp only
    split
    · refine ⟨_, rfl, fun h => (by cases h), fun _ _ => rfl, fun hfree => ?_⟩
      cases hruns hfree
    · refine ⟨_, rfl, fun h => (by cases h), fun hbeyond hfree => ?_, fun hfree => ?_⟩
      · cases hinfeasible hbeyond hfree
      · cases hruns hfree

end OneRow

/-! ## The least `-x` for `x - y ≤ 5`, with `x` and `y` from zero on -/

namespace OneRow.Wedge

def steps : List (Program.Step Exact) :=
  [.allBounds (.ofRat 0) .posInf, .integer 1, .row #[.ofRat 1, .ofRat (-1)] (.ofRat 5)]

def program : Program Exact where
  sense := .minimise
  costs := #[.ofRat (-1), .ofRat 0]
  constant := .ofRat 0
  lower := #[.ofRat 0, .ofRat 0]
  upper := #[.posInf, .posInf]
  integers := #[1]
  binaries := #[]
  rows := #[⟨#[.ofRat 1, .ofRat (-1)], .ofRat 5⟩]

def oneRow : OneRow Exact := ⟨program, #[.ofRat (-1), .ofRat 0]⟩

theorem build_eq : Program.build .minimise #[.ofRat (-1), .ofRat 0] steps = .ok program := by
  with_unfolding_all rfl

theorem ofProgram_eq : ofProgram program = .ok oneRow := rfl

/-- The node that raises `y` to one. -/
def node : Node Exact where
  vars := #[1]
  cuts := #[{ atLeast := some 1 }]
  estimate := .negInf
  depth := 1

/-- Both variables are in the row. -/
theorem not_runsFree (lower upper : Array Exact) : ¬program.RunsFree lower upper := by
  rintro ⟨j, cost, -, hoff, -⟩
  have hzero := hoff ⟨#[.ofRat 1, .ofRat (-1)], .ofRat 5⟩ (by simp [program])
  match j with
  | 0 => simp at hzero
  | 1 => simp at hzero
  | _ + 2 => simp at hzero

/-- The pivot `y` has a price of zero, which `x` beats, and both can be raised together. -/
theorem failed_means_unbounded_on_wedge : ∃ lower upper answer,
    Program.build .minimise #[.ofRat (-1), .ofRat 0] steps = .ok program ∧
    ofProgram program = .ok oneRow ∧
    node.tighten program.lower program.upper = .ok (lower, upper) ∧
    oneRow.answer node none = .ok answer ∧ answer.verdict = .failed ∧
    program.Unbounded lower upper := by
  have htighten : node.tighten program.lower program.upper =
      .ok (#[.ofRat 0, .ofRat 1], #[.posInf, .posInf]) := rfl
  have hle : ∀ (j : Nat) (l u : Exact), (#[.ofRat 0, .ofRat 1] : Array Exact)[j]? = some l →
      (#[.posInf, .posInf] : Array Exact)[j]? = some u → l ≤ u
    | 0, l, u, hl, hu => by
      rw [← Option.some.inj hl, ← Option.some.inj hu]
      exact ofRat_le_posInf 0
    | 1, l, u, hl, hu => by
      rw [← Option.some.inj hl, ← Option.some.inj hu]
      exact ofRat_le_posInf 1
    | _ + 2, _, _, hl, _ => nomatch hl
  have hrun : (oneRow.answer node none).toOption.map Answer.verdict = some .failed := by
    decide +kernel
  obtain ⟨found, hfound, hverdict⟩ := exists_of_toOption_map hrun
  obtain ⟨answer, hanswer, hfailed, -, -⟩ := failed_means_unbounded build_eq ofProgram_eq
    (by simp) rfl (by simp [program, Scalar.inf]) (by simp [program, Scalar.inf])
    (by simp [node, program, Program.size]) htighten hle none
  obtain rfl := Except.ok.inj (hfound.symm.trans hanswer)
  refine ⟨_, _, found, build_eq, ofProgram_eq, htighten, hfound, hverdict, ?_⟩
  rcases hfailed hverdict with hunbounded | ⟨hfree, -⟩
  · exact hunbounded
  · exact absurd hfree (not_runsFree _ _)

end OneRow.Wedge

/-! ## The least `-x` for `x` from zero on, with `y` from one to two and the row `y ≤ 0` -/

namespace OneRow.Beyond

def steps : List (Program.Step Exact) :=
  [.bounds 0 (.ofRat 0) .posInf, .bounds 1 (.ofRat 1) (.ofRat 2),
    .row #[.ofRat 0, .ofRat 1] (.ofRat 0)]

/-- The points of the box have an activity of one at least. -/
theorem exists_activity {x : Array Exact}
    (hx : x ∈ pointsWithin #[.ofRat 0, .ofRat 1] #[.posInf, .ofRat 2]) :
    ∃ q : ℚ, 1 ≤ q ∧ Scalar.dot #[.ofRat 0, .ofRat 1] x = .ofRat q := by
  obtain ⟨hsize, hrational, hbounds⟩ := hx
  obtain ⟨z, hz⟩ := exists_eq_vector fun v hv => isFinite_iff.mpr (hrational v hv)
  have htwo : x.size = 2 := hsize
  rw [htwo] at hz
  subst hz
  have hentry : (vector 2 z)[1]? = some (.ofRat (z 1)) := getElem?_tabulate_of_lt _ (by decide)
  have hone : 1 ≤ z 1 := (ofRat_le 1 (z 1)).mp (hbounds 1 _ _ _ rfl rfl hentry).1
  have hcoefs : (#[.ofRat 0, .ofRat 1] : Array Exact) = vector 2 fun j => (j : ℚ) :=
    eq_tabulate rfl fun j hj => by
      obtain rfl | rfl : j = 0 ∨ j = 1 := by omega
      all_goals simp
  refine ⟨z 1, hone, ?_⟩
  rw [hcoefs, dot_vector]
  simp [Finset.sum_range_succ]

/-- The relaxation fails although the row is out of reach. -/
theorem failed_out_of_reach : ∃ p r answer,
    Program.build .minimise #[.ofRat (-1), .ofRat 0] steps = .ok p ∧ ofProgram p = .ok r ∧
    Scalar.isFinite p.constant = true ∧
    r.answer (Node.root #[] .negInf) none = .ok answer ∧ answer.verdict = .failed ∧
    p.Unreachable p.lower p.upper ∧
    ∀ x ∈ pointsWithin p.lower p.upper, ¬∀ row ∈ p.rows, row.activity x ≤ row.rhs := by
  obtain ⟨p, hbuild, hp⟩ : ∃ p, Program.build .minimise #[.ofRat (-1), .ofRat 0] steps = .ok p ∧
      (p.constant, p.lower, p.upper, p.rows.map fun row => (row.coefs, row.rhs)) =
        (.ofRat 0, #[.ofRat 0, .ofRat 1], #[.posInf, .ofRat 2],
          #[(#[.ofRat 0, .ofRat 1], .ofRat 0)]) := by
    refine exists_of_toOption_map ?_
    decide +kernel
  obtain ⟨hconstant, hlower, hupper, hrows⟩ : p.constant = .ofRat 0 ∧
      p.lower = #[.ofRat 0, .ofRat 1] ∧ p.upper = #[.posInf, .ofRat 2] ∧
      (p.rows.map fun row => (row.coefs, row.rhs)) = #[(#[.ofRat 0, .ofRat 1], .ofRat 0)] := by
    simpa only [Prod.mk.injEq] using hp
  have hsize : p.rows.size = 1 := by simpa using congrArg Array.size hrows
  obtain ⟨row, hrow⟩ : ∃ row, p.rows = #[row] := Array.size_eq_one_iff.mp hsize
  obtain ⟨hcoefs, hrhs⟩ : row.coefs = #[.ofRat 0, .ofRat 1] ∧ row.rhs = .ofRat 0 := by
    simpa [hrow] using hrows
  have hr : ofProgram p = .ok _ := if_neg (by rw [hsize]; decide)
  have hrun : ((Program.build .minimise #[.ofRat (-1), .ofRat 0] steps >>= fun p =>
      ofProgram p >>= fun r => r.answer (Node.root #[] .negInf) none).toOption.map
      fun answer => answer.verdict) = some .failed := by decide +kernel
  simp only [hbuild, hr, bind, Except.bind] at hrun
  obtain ⟨answer, hanswer, hfailed⟩ := exists_of_toOption_map hrun
  have hone : ∀ x ∈ pointsWithin p.lower p.upper, ∃ q : ℚ, 1 ≤ q ∧ row.activity x = .ofRat q := by
    rw [hlower, hupper]
    intro x hx
    rw [Row.activity, hcoefs]
    exact exists_activity hx
  refine ⟨p, _, answer, hbuild, hr, by rw [hconstant]; rfl, hanswer, hfailed, ?_, ?_⟩
  · refine ⟨row, by simp [hrow], fun x hx => ?_⟩
    obtain ⟨q, hq, hactivity⟩ := hone x hx
    have hallowance : row.rhs + 1e-9 * (1.0 + Scalar.abs row.rhs) = .ofRat (1 / 10 ^ 9) := by
      rw [hrhs]
      decide +kernel
    rw [hallowance, hactivity, ofRat_lt]
    linarith
  · intro x hx hwithin
    obtain ⟨q, hq, hactivity⟩ := hone x hx
    have hzero := hwithin row (by simp [hrow])
    rw [hrhs, hactivity, ofRat_le] at hzero
    linarith

end OneRow.Beyond

end BranchBound
