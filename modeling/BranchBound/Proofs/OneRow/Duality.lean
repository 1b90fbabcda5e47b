import BranchBound.Proofs.Accounting
import BranchBound.Proofs.Double.Parabola
import BranchBound.Proofs.Mirror
import BranchBound.Proofs.OneRow.Answers

/-!
# Duality of programs with one row

Minimising `c · x + c₀` is maximising `-c · x - c₀` over the same points. The relaxation of a program
that maximises takes the negative of its costs, so the relaxations of both programs read the same
costs and place the variables of every box alike (`solveBox_mirror`). They differ in the sign of the
objective only, and the search does not mind that: both programs are solved in the same way
(`solve_mirror`).
-/

namespace BranchBound

variable {α : Type} [Scalar α] [Symmetric α]

/-! ## Opposite objectives -/

/-- Programs with opposite senses and objectives over the same points. -/
structure Program.Mirrors (p q : Program α) : Prop where
  sense : q.sense = p.sense.opposite
  costs : q.costs = p.costs.map (-·)
  constant : Mirrored p.constant q.constant
  lower : q.lower = p.lower
  upper : q.upper = p.upper
  integers : q.integers = p.integers
  rows : q.rows = p.rows

theorem mirrored_zero : Mirrored (0.0 : α) 0.0 := by
  unfold Mirrored
  rw [Lawful.value_zero, Exact.neg_ofRat, neg_zero]

theorem mirrored_minus_zero : Mirrored (-0.0 : α) (-0.0) := mirrored_zero.neg

/-- With negative costs a sum of products is mirrored. -/
theorem mirrored_foldl (costs x : List α) {start start' : α} (h : Mirrored start start') :
    Mirrored ((List.zipWith (· * ·) costs x).foldl (· + ·) start)
      ((List.zipWith (· * ·) (costs.map (-·)) x).foldl (· + ·) start') := by
  induction costs generalizing x start start' with
  | nil => exact h
  | cons c rest ih =>
    cases x with
    | nil => exact h
    | cons v vs => exact ih vs (h.add (Symmetric.value_neg_mul c v))

theorem mirrored_dot (costs x : Array α) :
    Mirrored (Scalar.dot costs x) (Scalar.dot (costs.map (-·)) x) := by
  unfold Scalar.dot Scalar.sum
  rw [← Array.foldl_toList, ← Array.foldl_toList, Array.toList_zipWith, Array.toList_zipWith,
    Array.toList_map]
  exact mirrored_foldl _ _ mirrored_minus_zero

namespace Program.Mirrors

variable {p q : Program α}

theorem objective (h : p.Mirrors q) (x : Array α) : Mirrored (p.objective x) (q.objective x) := by
  unfold Program.objective
  rw [h.costs]
  exact h.constant.add (mirrored_dot _ _)

theorem size (h : p.Mirrors q) : q.size = p.size := by
  unfold Program.size
  rw [h.costs, Array.size_map]

theorem accepts (h : p.Mirrors q) : q.accepts = p.accepts := by
  funext x
  unfold Program.accepts Program.withinBounds
  rw [h.size, h.lower, h.upper, h.rows]

end Program.Mirrors

/-! ## Building the mirrored program -/

/-- The step for the mirrored program: only the constant has a sign. -/
def Program.Step.opposite : Program.Step α → Program.Step α
  | .constant value => .constant (-value)
  | step => step

namespace Program.Mirrors

variable {p q p' : Program α}

theorem setBounds (h : p.Mirrors q) {var : Nat} {lower upper : α}
    (hp : p.setBounds var lower upper = .ok p') :
    ∃ q', q.setBounds var lower upper = .ok q' ∧ p'.Mirrors q' := by
  obtain ⟨hvar, hvalid, rfl⟩ := setBounds_eq_ok hp
  rw [setBounds_ok (h.size ▸ hvar) hvalid, h.lower, h.upper]
  exact ⟨_, rfl, h.sense, h.costs, h.constant, rfl, rfl, h.integers, h.rows⟩

theorem markInteger (h : p.Mirrors q) {var : Nat} (hp : p.markInteger var = .ok p') :
    ∃ q', q.markInteger var = .ok q' ∧ p'.Mirrors q' := by
  obtain ⟨hvar, rfl⟩ := markInteger_eq_ok hp
  rw [markInteger_ok (h.size ▸ hvar), h.integers]
  exact ⟨_, rfl, h.sense, h.costs, h.constant, h.lower, h.upper, rfl, h.rows⟩

theorem markBinary (h : p.Mirrors q) {var : Nat} (hp : p.markBinary var = .ok p') :
    ∃ q', q.markBinary var = .ok q' ∧ p'.Mirrors q' := by
  obtain ⟨hvar, rfl⟩ := markBinary_eq_ok hp
  rw [markBinary_ok (h.size ▸ hvar), h.integers, h.lower, h.upper]
  exact ⟨_, rfl, h.sense, h.costs, h.constant, rfl, rfl, rfl, h.rows⟩

theorem addRow (h : p.Mirrors q) {coefs : Array α} {rhs : α} (hp : p.addRow coefs rhs = .ok p') :
    ∃ q', q.addRow coefs rhs = .ok q' ∧ p'.Mirrors q' := by
  obtain ⟨hsize, hcoefs, hrhs, rfl⟩ := addRow_eq_ok hp
  rw [addRow_ok (h.size ▸ hsize) hcoefs hrhs, h.rows]
  exact ⟨_, rfl, h.sense, h.costs, h.constant, h.lower, h.upper, h.integers, rfl⟩

/-- A step for a program has its opposite for the mirrored one. -/
theorem apply (h : p.Mirrors q) {step : Step α} (hp : step.apply p = .ok p') :
    ∃ q', step.opposite.apply q = .ok q' ∧ p'.Mirrors q' := by
  cases step with
  | constant value =>
    rw [← Except.ok.inj hp]
    exact ⟨_, rfl, h.sense, h.costs, mirrored_neg value, h.lower, h.upper, h.integers, h.rows⟩
  | bounds var lower upper => exact h.setBounds hp
  | allBounds lower upper =>
    have hall := exists_foldlM_of_rel (k := id)
      (g := fun q var => q.setBounds var lower upper) (fun h => h.setBounds) h hp
    rw [List.map_id] at hall
    show ∃ q', q.setAllBounds lower upper = .ok q' ∧ _
    unfold Program.setAllBounds
    rw [h.size]
    exact hall
  | integer var => exact h.markInteger hp
  | binary var => exact h.markBinary hp
  | allInteger =>
    have hall := exists_foldlM_of_rel (k := id) (g := fun q var => q.markInteger var)
      (fun h => h.markInteger) h hp
    rw [List.map_id] at hall
    show ∃ q', q.markAllInteger = .ok q' ∧ _
    unfold Program.markAllInteger
    rw [h.size]
    exact hall
  | row coefs rhs => exact h.addRow hp

/-- The opposite steps build a mirrored program. -/
theorem build {sense : Sense} {costs : Array α} {steps : List (Step α)}
    (hp : Program.build sense costs steps = .ok p) : ∃ q,
    Program.build sense.opposite (costs.map (-·)) (steps.map Step.opposite) = .ok q ∧
      p.Mirrors q := by
  have hempty : (ofCosts sense costs).Mirrors (ofCosts sense.opposite (costs.map (-·))) := by
    unfold ofCosts
    rw [Array.size_map]
    exact ⟨rfl, rfl, mirrored_zero, rfl, rfl, rfl, rfl⟩
  exact exists_foldlM_of_rel (fun h => h.apply) hempty hp

end Program.Mirrors

theorem Node.Mirrors.tighten {node node' : Node α} (h : node.Mirrors node') (lower upper : Array α) :
    node'.tighten lower upper = node.tighten lower upper := by
  unfold Node.tighten Node.overrides
  rw [h.vars, h.cuts]

namespace OneRow

variable {p q : Program α} {r r' : OneRow α}

/-! ## Placing -/

omit [Symmetric α] in
/-- Only the costs and the row are read over a box. -/
theorem solveBox_congr (hcosts : r'.costs = r.costs) (hrow : r'.row? = r.row?) :
    r'.solveBox = r.solveBox := by
  funext lower upper
  unfold solveBox columnsOver
  rw [hcosts, hrow]

/-- The relaxations of mirrored programs read the same costs. -/
theorem costs_eq (h : p.Mirrors q) (hr : ofProgram p = .ok r) (hr' : ofProgram q = .ok r') :
    r'.costs = r.costs := by
  obtain ⟨-, -, hcosts⟩ := ofProgram_eq_ok hr
  obtain ⟨-, -, hcosts'⟩ := ofProgram_eq_ok hr'
  rw [h.sense, h.costs] at hcosts'
  cases hp : p.sense with
  | minimise =>
    rw [hp] at hcosts hcosts'
    -- the negative of a negative is the number itself, to the last bit
    have hneg : (fun v : α => -v) ∘ (fun v => -v) = id := funext Symmetric.neg_neg
    rw [hcosts, hcosts']
    show (p.costs.map (-·)).map (-·) = p.costs
    rw [Array.map_map, hneg, Array.map_id]
  | maximise =>
    rw [hp] at hcosts hcosts'
    rw [hcosts, hcosts']
    rfl

theorem solveBox_mirror (h : p.Mirrors q) (hr : ofProgram p = .ok r) (hr' : ofProgram q = .ok r') :
    r'.solveBox = r.solveBox := by
  refine solveBox_congr (costs_eq h hr hr') ?_
  unfold row?
  rw [(ofProgram_eq_ok hr).2.1, (ofProgram_eq_ok hr').2.1, h.rows]

/-! ## Answers -/

omit [Symmetric α] in
/-- The relaxation of a well-formed program answers for every node over it. -/
theorem answer_ok (hp : p.WellFormed) (hr : ofProgram p = .ok r) {node : Node α}
    (hover : node.IsOver p.problem) (cutoff : Option (Cutoff α)) :
    ∃ answer, r.answer node cutoff = .ok answer := by
  obtain ⟨lower, upper, htighten, -, -⟩ := tighten_ok hp hover
  have hprogram := (ofProgram_eq_ok hr).2.1
  rw [← hprogram] at htighten
  exact exists_answer_of_tighten htighten cutoff

/-- Within mirrored cutoffs the relaxations of mirrored programs give mirrored answers. -/
theorem answer_mirror (h : p.Mirrors q) (hr : ofProgram p = .ok r) (hr' : ofProgram q = .ok r')
    {node node' : Node α} (hnode : node.Mirrors node') {cutoff cutoff' : Option (Cutoff α)}
    (hcutoff : Option.Rel Cutoff.Mirrors cutoff cutoff') {answer : Answer α}
    (hanswer : r.answer node cutoff = .ok answer) :
    ∃ answer', r'.answer node' cutoff' = .ok answer' ∧ answer.Mirrors answer' := by
  have hprogram := (ofProgram_eq_ok hr).2.1
  have hprogram' := (ofProgram_eq_ok hr').2.1
  have htighten' : node'.tighten r'.program.lower r'.program.upper =
      node.tighten r.program.lower r.program.upper := by
    rw [hprogram, hprogram', hnode.tighten, h.lower, h.upper]
  cases htighten : node.tighten r.program.lower r.program.upper with
  | error e =>
    unfold OneRow.answer at hanswer
    rw [htighten] at hanswer
    cases hanswer
  | ok bounds =>
    rw [htighten] at htighten'
    rw [answer_of_tighten htighten] at hanswer
    rw [answer_of_tighten htighten', solveBox_mirror h hr hr']
    split at hanswer
    · rename_i hcross
      rw [← Except.ok.inj hanswer, if_pos hcross]
      exact ⟨_, rfl, Answer.mirrors_infeasible⟩
    · rename_i hcross
      rw [if_neg hcross]
      cases hbox : r.solveBox bounds.1 bounds.2 with
      | unbounded =>
        rw [hbox] at hanswer
        rw [← Except.ok.inj hanswer]
        exact ⟨_, rfl, Answer.mirrors_failed⟩
      | infeasible =>
        rw [hbox] at hanswer
        rw [← Except.ok.inj hanswer]
        exact ⟨_, rfl, Answer.mirrors_infeasible⟩
      | solved x =>
        have hvalue : Mirrored (r.program.objective x) (r'.program.objective x) := by
          rw [hprogram, hprogram']
          exact h.objective x
        rw [hbox] at hanswer
        dsimp only at hanswer ⊢
        rw [Cutoff.any_excludes_mirror hcutoff hvalue]
        split at hanswer
        · rename_i hexcluded
          rw [← Except.ok.inj hanswer, if_pos hexcluded]
          exact ⟨_, rfl, Answer.mirrors_infeasible⟩
        · rename_i hincluded
          rw [← Except.ok.inj hanswer, if_neg hincluded]
          exact ⟨_, rfl, rfl, rfl, hvalue⟩

/-! ## Solving -/

/-- The searches for mirrored programs are mirrored. -/
theorem search_mirrors (h : p.Mirrors q) (hr : ofProgram p = .ok r) (hr' : ofProgram q = .ok r')
    (settings : Settings α) : Search.Mirrors ⟨p.problem, r.relaxation, settings⟩
      ⟨q.problem, r'.relaxation, settings⟩ where
  sense := h.sense
  integers := h.integers
  size := h.size
  accepts := h.accepts
  objective := h.objective
  settings := rfl
  answers hnode hcutoff hanswer := answer_mirror h hr hr' hnode hcutoff hanswer

/-- A program and its mirrored one are solved in the same way: under the same settings and from the
same warm start, the relaxation is asked about the same boxes in the same order, within mirrored
cutoffs, and the reports have the same status, point and counters, and opposite objective values. If
there is a time limit the clocks have to show the same. -/
theorem solve_mirror (hp : p.WellFormed) (hrows : p.rows.size ≤ 1) (h : p.Mirrors q)
    (settings : Settings α) (hcheck : settings.check = .ok ()) (warmStart : Option (Array α))
    (clock clock' : Nat → Nat) (htime : settings.timeLimit = none ∨ clock = clock') :
    ∃ r r' report report', ofProgram p = .ok r ∧ ofProgram q = .ok r' ∧
      Search.solve ⟨p.problem, r.relaxation, settings⟩ warmStart clock = .ok report ∧
      Search.solve ⟨q.problem, r'.relaxation, settings⟩ warmStart clock' = .ok report' ∧
      report.Mirrors report' := by
  have hrelaxed : ∀ p : Program α, p.rows.size ≤ 1 → ∃ r, ofProgram p = .ok r := by
    intro p hrows
    unfold ofProgram
    rw [if_neg (not_lt.mpr hrows)]
    exact ⟨_, rfl⟩
  obtain ⟨r, hr⟩ := hrelaxed p hrows
  obtain ⟨r', hr'⟩ := hrelaxed q (h.rows ▸ hrows)
  have hmirrors := search_mirrors h hr hr' settings
  obtain ⟨report, hreport⟩ :=
    @Search.solve_ok α _ ⟨p.problem, r.relaxation, settings⟩ hp.known hcheck
      (fun _ _ cutoff hover => answer_ok hp hr hover cutoff) warmStart clock
  obtain ⟨report', hreport', hsame⟩ := hmirrors.solve htime hreport
  exact ⟨r, r', report, report', hr, hr', hreport, hreport', hsame⟩

namespace Halves

def steps (constant : Float) : List (Program.Step Float) :=
  [.constant constant, .allBounds 0.0 3.0, .allInteger, .row #[2.0, 1.0] 5.5]

end Halves

/-- The greatest `3 x - 2 y + 0.5` is found in as many nodes as the least `-3 x + 2 y - 0.5`, from
the same warm start. -/
theorem solve_mirror_halves : ∃ p q r r' report report',
    Program.build .maximise #[3.0, -2.0] (Halves.steps 0.5) = .ok p ∧
    Program.build .minimise #[-3.0, 2.0] (Halves.steps (-0.5)) = .ok q ∧
    ofProgram p = .ok r ∧ ofProgram q = .ok r' ∧
    Search.solve ⟨p.problem, r.relaxation, .standard⟩ (some #[0.0, 1.0]) (fun _ => 0) =
      .ok report ∧
    Search.solve ⟨q.problem, r'.relaxation, .standard⟩ (some #[0.0, 1.0]) (fun _ => 0) =
      .ok report' ∧
    report.Mirrors report' ∧ report.solution.status = .optimal ∧ report.solution.solved = 3 := by
  have hrun : ∃ p, Program.build .maximise #[3.0, -2.0] (Halves.steps 0.5) = .ok p ∧
      (p.rows.size, (ofProgram p).toOption.bind fun r =>
        (Search.solve ⟨p.problem, r.relaxation, .standard⟩ (some #[0.0, 1.0])
          fun _ => 0).toOption.map fun report =>
            (report.solution.status, report.solution.solved)) = (1, some (.optimal, 3)) := by
    refine exists_of_toOption_map ?_
    decide +kernel
  obtain ⟨p, hbuild, hfound⟩ := hrun
  obtain ⟨hrows, hfound⟩ := Prod.mk.inj hfound
  obtain ⟨q, hbuild', hmirrors⟩ := Program.Mirrors.build hbuild
  obtain ⟨r, r', report, report', hr, hr', hreport, hreport', hsame⟩ :=
    solve_mirror (Program.of_build hbuild).wellFormed hrows.le hmirrors .standard
      (by decide +kernel) (some #[0.0, 1.0]) (fun _ => 0) (fun _ => 0) (Or.inl rfl)
  rw [hr] at hfound
  dsimp only [Except.toOption, Option.bind] at hfound
  rw [hreport] at hfound
  obtain ⟨hstatus, hsolved⟩ := Prod.mk.inj (Option.some.inj hfound)
  refine ⟨p, q, r, r', report, report', hbuild, ?_, hr, hr', hreport, hreport', hsame, hstatus,
    hsolved⟩
  have hcosts : (#[3.0, -2.0] : Array Float).map (-·) = #[-3.0, 2.0] := by
    simp [Symmetric.neg_neg]
  rw [hcosts] at hbuild'
  exact hbuild'

end OneRow

end BranchBound
