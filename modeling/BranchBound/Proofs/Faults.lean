import BranchBound.Proofs.OneRow.Indexing

/-!
# Faults

The only fault that a search of a built program reports is one of its settings. That is found before
the relaxation is called, and nothing after it fails: the accesses to a point come after a check of
its length, the positions of a node are those of the problem's whole variables, which the builders
checked, and the frequency of reports is not zero.

This holds along every schedule, and of the relaxation of programs with one row as well, with all of
its reads checked (`solve_fails_only_on_settings`).
-/

namespace BranchBound

variable {α : Type} [Scalar α]

namespace Search

variable {search : Search α}

/-- With a fault of its settings a search ends before its first step. -/
theorem solve_eq_error_of_check {e : Error α} (h : search.settings.check = .error e)
    (warmStart : Option (Array α)) (clock : Nat → Nat) :
    search.solve warmStart clock = .error e := by
  unfold solve
  rw [h]
  rfl

variable (hknown : ∀ var ∈ search.problem.integers, var < search.problem.size)
  (hanswers : ∀ (call : Nat) (node : Node α) (cutoff : Option (Cutoff α)),
    node.IsOver search.problem → ∃ answer, search.relaxation call node cutoff = .ok answer)

include hknown hanswers

/-- A search whose relaxation always answers fails with the fault of its settings, or not at all. -/
theorem solve_eq_error_iff (warmStart : Option (Array α)) (clock : Nat → Nat) (e : Error α) :
    search.solve warmStart clock = .error e ↔ search.settings.check = .error e := by
  refine ⟨fun h => ?_, fun h => solve_eq_error_of_check h warmStart clock⟩
  cases hcheck : search.settings.check with
  | error e' =>
    rw [solve_eq_error_of_check hcheck warmStart clock] at h
    rw [Except.error.inj h]
  | ok u =>
    obtain ⟨report, hreport⟩ := solve_ok hknown hcheck hanswers warmStart clock
    rw [hreport] at h
    cases h

/-- Along every schedule, every visit of a pending node succeeds. -/
theorem visit_ok_of_reaches (hcheck : search.settings.check = .ok ())
    {warmStart : Option (Array α)} {start r : Run α} (hstart : search.start warmStart = .ok start)
    (hreaches : Run.Reaches search start r) {node : Node α} (hnode : node ∈ r.pending)
    (elapsed : Nat) : ∃ v, visit search elapsed r.state node = .ok v := by
  obtain ⟨-, -, -, -, hlog⟩ := Settings.check_eq_ok_iff.mp hcheck
  have hcoherent := Run.invariant_of_reaches (P := Run.Coherent search)
    (fun hstep hr => hr.of_advances hstep) hreaches (Run.coherent_start hstart)
  have hover := hcoherent.isOver node hnode
  exact visit_ok hlog hover hknown fun cutoff => hanswers _ node cutoff hover

end Search

namespace OneRow

/-- The relaxation that reads by index. -/
def relaxationIndexed (r : OneRow α) : Relaxation α := fun _ node cutoff =>
  r.answerIndexed node cutoff

/-- For a built program the relaxation that reads by index always answers, as the other one does. -/
theorem exists_answerIndexed {p : Program α} {r : OneRow α} (hp : p.WellFormed)
    (hr : ofProgram p = .ok r) {node : Node α} (hover : node.IsOver p.problem)
    (cutoff : Option (Cutoff α)) :
    ∃ answer, r.answerIndexed node cutoff = .ok answer ∧ r.answer node cutoff = .ok answer := by
  rw [answerIndexed_eq hp hr hover]
  obtain ⟨answer, hanswer⟩ := answer_ok hp hr hover cutoff
  exact ⟨answer, hanswer, hanswer⟩

end OneRow

/-- A search of a built program fails if and only if its settings do, with the same fault and before
any call. Otherwise there is a report, whatever the relaxation answers and whatever the warm start
is, and along every schedule every visit succeeds. The same goes for the program's own relaxation,
if it has one, with every read checked; and the variables that it sorts are in an order. -/
theorem solve_fails_only_on_settings [Lawful α] {sense : Sense} {costs : Array α}
    {steps : List (Program.Step α)} {p : Program α}
    (hbuild : Program.build sense costs steps = .ok p)
    (settings : Settings α) (warmStart : Option (Array α)) (clock : Nat → Nat) :
    (∀ e, settings.check = .error e → ∀ relaxation,
      Search.solve ⟨p.problem, relaxation, settings⟩ warmStart clock = .error e) ∧
    (∀ answers : Nat → Node α → Option (Cutoff α) → Answer α,
      let search : Search α :=
        ⟨p.problem, fun call node cutoff => .ok (answers call node cutoff), settings⟩
      (∀ e, search.solve warmStart clock = .error e ↔ settings.check = .error e) ∧
      (settings.check = .ok () → ∀ start r, search.start warmStart = .ok start →
        Run.Reaches search start r → ∀ node ∈ r.pending, ∀ elapsed,
        ∃ v, visit search elapsed r.state node = .ok v)) ∧
    ∀ r, OneRow.ofProgram p = .ok r →
      (∀ e, Search.solve ⟨p.problem, r.relaxationIndexed, settings⟩ warmStart clock = .error e ↔
        settings.check = .error e) ∧
      (∀ node, node.IsOver p.problem → ∀ cutoff, ∃ answer,
        r.answerIndexed node cutoff = .ok answer ∧ r.answer node cutoff = .ok answer) ∧
      ∀ levels : List (OneRow.Column α × OneRow.Level α), ∀ c ∈ OneRow.risers levels,
        ∀ d ∈ OneRow.risers levels, (c.before d = true ∨ d.before c = true) ∧
          ∀ e ∈ OneRow.risers levels,
            c.before d = true → d.before e = true → c.before e = true := by
  have hp := (Program.of_build hbuild).wellFormed
  refine ⟨fun e he relaxation => Search.solve_eq_error_of_check he warmStart clock,
    fun answers => ⟨?_, ?_⟩, fun r hr => ⟨?_, ?_, ?_⟩⟩
  · exact Search.solve_eq_error_iff hp.known (fun _ _ _ _ => ⟨_, rfl⟩) warmStart clock
  · intro hcheck start r hstart hreaches node hnode
    exact Search.visit_ok_of_reaches hp.known (fun _ _ _ _ => ⟨_, rfl⟩) hcheck hstart hreaches hnode
  · refine Search.solve_eq_error_iff hp.known (fun call node cutoff hover => ?_) warmStart clock
    obtain ⟨answer, hanswer, -⟩ := OneRow.exists_answerIndexed hp hr hover cutoff
    exact ⟨answer, hanswer⟩
  · exact fun node hover => OneRow.exists_answerIndexed hp hr hover
  · intro levels c hc d hd
    refine ⟨OneRow.Column.before_total c d, fun e he => ?_⟩
    exact OneRow.Column.before_trans (OneRow.valid_gain_of_mem_risers hc)
      (OneRow.valid_gain_of_mem_risers hd) (OneRow.valid_gain_of_mem_risers he)

/-- Whatever the warm start, the program of the halves is solved; without a frequency of reports no
relaxation is asked about it. -/
theorem solve_fails_only_on_settings_halves : ∃ p r,
    Program.build .maximise #[3.0, -2.0] (OneRow.Halves.steps 0.5) = .ok p ∧
    OneRow.ofProgram p = .ok r ∧
    (∀ warmStart, ∃ report, Search.solve ⟨p.problem, r.relaxationIndexed, .standard⟩ warmStart
      (fun _ => 0) = .ok report) ∧
    ∀ relaxation, Search.solve ⟨p.problem, relaxation, { Settings.standard with logFrequency := 0 }⟩
      none (fun _ => 0) = .error (.settings .zeroLogFrequency) := by
  obtain ⟨p, hbuild, hrows⟩ : ∃ p, Program.build .maximise #[3.0, -2.0]
      (OneRow.Halves.steps 0.5) = .ok p ∧ p.rows.size = 1 := by
    refine exists_of_toOption_map ?_
    decide +kernel
  have hr : OneRow.ofProgram p = .ok _ := if_neg (by rw [hrows]; decide)
  have hcheck : (Settings.standard : Settings Float).check = .ok () := by decide +kernel
  refine ⟨p, _, hbuild, hr, fun warmStart => ?_, fun relaxation => ?_⟩
  · obtain ⟨-, -, hown⟩ :=
      solve_fails_only_on_settings hbuild .standard warmStart fun _ => 0
    obtain ⟨hiff, -⟩ := hown _ hr
    cases hsolve : Search.solve ⟨p.problem, OneRow.relaxationIndexed _, .standard⟩ warmStart
        (fun _ => 0) with
    | ok report => exact ⟨report, rfl⟩
    | error e =>
      rw [(hiff e).mp hsolve] at hcheck
      cases hcheck
  · refine (solve_fails_only_on_settings hbuild _ none fun _ => 0).1 _ ?_ relaxation
    rfl

end BranchBound
