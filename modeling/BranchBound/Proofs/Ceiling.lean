import BranchBound.Proofs.Accounting
import BranchBound.Proofs.Double.Parabola
import BranchBound.Proofs.Heeding
import BranchBound.Proofs.Limits

/-!
# The ceiling

A search whose count of iterations passes the ceiling ends with an error at one node, but it still
gives a report. The answer that passed the ceiling is the last one that it asks for
(`Run.Capped`), and that answer is dropped before it is looked at: from the ceiling on no visit
changes the incumbent (`best_of_visit_of_le`). So what it found is what a search finds that only
stops to solve nodes after so many iterations (`ceiling_keeps_incumbent`).
-/

namespace BranchBound

variable {α : Type}

/-- Number of answers with a point among calls. -/
def pointsIn (calls : List (Call α)) : Nat := calls.countP (·.answer.verdict.isFeasible)

/-- How a run stands to a ceiling: within it, or the last call passed it. -/
inductive Run.Capped (ceiling : Nat) (r : Run α) : Prop
  | within (h : r.state.budget.iterations ≤ ceiling)
      (hpoints : pointsIn (callsOf r.journal) = r.state.budget.iterations)
  | passed {earlier : List (Call α)} {last : Call α} (hcalls : callsOf r.journal = earlier ++ [last])
      (hlast : last.answer.verdict.isFeasible = true) (hpoints : pointsIn earlier = ceiling)
      (hiterations : r.state.budget.iterations = ceiling + 1) (hcomplete : r.complete = false)

variable [Scalar α] {search : Search α}

section

variable {elapsed : Nat} {σ : State α} {node : Node α} {v : Visit α} {n ceiling : Nat}

/-- Once the ceiling is reached no visit changes the incumbent. -/
theorem best_of_visit_of_le (hb : σ.budget.Has n ceiling) (hle : ceiling ≤ σ.budget.iterations)
    (h : visit search elapsed σ node = .ok v) : v.state.board.best = σ.board.best := by
  rcases (board_of_visit h).2 with hsame | ⟨answer, events, takes, -, -⟩
  · exact hsame
  · have haffordable := takes.affordable
    rw [hb.isExhausted_spend, decide_eq_false_iff_not] at haffordable
    exact absurd hle haffordable

/-- A visit makes no call and spends nothing, or it makes one within the ceiling and spends an
iteration on an answer with a point; if that passes the ceiling the node is left out. -/
theorem spending_of_visit (hb : σ.budget.Has n ceiling) (h : visit search elapsed σ node = .ok v) :
    (v.events.filterMap Event.call? = [] ∧ v.state.budget.iterations = σ.budget.iterations) ∨
    ∃ call, v.events.filterMap Event.call? = [call] ∧ σ.budget.iterations ≤ ceiling ∧
      v.state.budget.iterations =
        σ.budget.iterations + (if call.answer.verdict.isFeasible then 1 else 0) ∧
      (ceiling < v.state.budget.iterations → v.outcome.isExhaustive = false) := by
  obtain ⟨e, he⟩ := Visit.exists_records h
  have hiterations := he.iterations
  unfold Ending.hasPoint at hiterations
  have hcalls := calls_of_visit h
  by_cases hasks : σ.asks search elapsed node = true
  · rw [if_pos hasks] at hcalls
    obtain ⟨⟨answer, -, hevents⟩, -⟩ := hcalls
    have hcall := Option.toList_eq_singleton_iff.mp (he.calls.symm.trans hevents)
    rw [hcall, Option.any_some] at hiterations
    have hallowed : σ.budget.iterations ≤ ceiling := by
      rw [State.asks, hb.allows_eq, Bool.and_eq_true, Bool.and_eq_true, decide_eq_true_iff] at hasks
      exact hasks.1.1.1
    refine Or.inr ⟨_, hevents, hallowed, hiterations, fun hpassed => ?_⟩
    have hexhausted := he.exhausted
    have hbefore : σ.budget.isExhausted = false := decide_eq_false (by rw [hb.ceiling]; omega)
    have hafter : v.state.budget.isExhausted = true :=
      decide_eq_true (by rw [(has_of_visit h hb).ceiling]; exact hpassed)
    rw [hbefore, hafter, Bool.false_or, eq_comm, Option.isNone_iff_eq_none] at hexhausted
    rw [Outcome.isExhaustive_eq, he.fate, hexhausted]
    rfl
  · rw [if_neg hasks] at hcalls
    have hcall := Option.toList_eq_nil_iff.mp (he.calls.symm.trans hcalls.1)
    rw [hcall, Option.any_none] at hiterations
    exact Or.inl ⟨hcalls.1, hiterations⟩

end

namespace Run

variable {n ceiling : Nat} {r s : Run α}

/-- A call that passes the ceiling is the last one. -/
theorem Capped.of_advances (hb : r.state.budget.Has n ceiling) (hr : r.Capped ceiling)
    (h : Advances search r s) : s.Capped ceiling := by
  obtain ⟨before, after, node, elapsed, v, -, hvisit, rfl⟩ := h.exists_visit
  rcases spending_of_visit hb hvisit with ⟨hevents, hsame⟩ |
    ⟨call, hevents, hallowed, hiterations, hleft⟩
  · have hcalls : callsOf (r.absorb (before ++ after) v).journal = callsOf r.journal := by
      rw [journal_absorb, callsOf_append, hevents, List.append_nil]
    cases hr with
    | within hle hpoints =>
      exact .within (by rw [state_absorb, hsame]; exact hle)
        (by rw [hcalls, state_absorb, hsame]; exact hpoints)
    | passed hlast hfeasible hpoints hpassed hincomplete =>
      exact .passed (hcalls.trans hlast) hfeasible hpoints
        (by rw [state_absorb, hsame]; exact hpassed)
        (by rw [complete_absorb, hincomplete, Bool.false_and])
  · have hcalls : callsOf (r.absorb (before ++ after) v).journal = callsOf r.journal ++ [call] := by
      rw [journal_absorb, callsOf_append, hevents]
    cases hr with
    | passed _ _ _ hpassed => omega
    | within hle hpoints =>
      by_cases hover : ceiling < v.state.budget.iterations
      · -- only an answer with a point takes the count over the ceiling
        have hfeasible : call.answer.verdict.isFeasible = true := by
          by_contra hnot
          rw [if_neg hnot] at hiterations
          omega
        rw [if_pos hfeasible] at hiterations
        refine .passed hcalls hfeasible (by omega) ?_ ?_
        · rw [state_absorb]
          omega
        · rw [complete_absorb, hleft hover, Bool.and_false]
      · refine .within ?_ ?_
        · rw [state_absorb]
          exact Nat.not_lt.mp hover
        · rw [hcalls, state_absorb, hiterations, ← hpoints]
          simp [pointsIn, List.countP_append, List.countP_singleton]

theorem capped_start {warmStart : Option (Array α)} (h : search.start warmStart = .ok r) :
    r.Capped ceiling := by
  obtain ⟨-, hopens, -, -, -, hcalls⟩ := Search.start_eq_ok h
  have hzero : r.state.budget.iterations = 0 := by
    rw [hopens.budget]
    rfl
  refine .within ?_ ?_
  · rw [hzero]
    exact Nat.zero_le ceiling
  · rw [hcalls, hzero]
    rfl

/-- Along every schedule. -/
theorem Capped.of_reaches (hb : r.state.budget.Has n ceiling) (hr : r.Capped ceiling)
    (h : Reaches search r s) : s.state.budget.Has n ceiling ∧ s.Capped ceiling := by
  refine invariant_of_reaches (P := fun s => s.state.budget.Has n ceiling ∧ s.Capped ceiling)
    (fun hstep ⟨hb, hr⟩ => ⟨?_, hr.of_advances hb hstep⟩) h ⟨hb, hr⟩
  obtain ⟨before, after, node, elapsed, v, -, hvisit, rfl⟩ := hstep.exists_visit
  rw [state_absorb]
  exact has_of_visit hvisit hb

/-- From the ceiling on the incumbent stays. -/
theorem best_of_reaches_of_le (hb : r.state.budget.Has n ceiling)
    (hle : ceiling ≤ r.state.budget.iterations) (h : Reaches search r s) :
    s.state.board.best = r.state.board.best := by
  suffices hall : s.state.budget.Has n ceiling ∧ ceiling ≤ s.state.budget.iterations ∧
      s.state.board.best = r.state.board.best from hall.2.2
  refine invariant_of_reaches (P := fun s => s.state.budget.Has n ceiling ∧
    ceiling ≤ s.state.budget.iterations ∧ s.state.board.best = r.state.board.best)
    (fun hstep ⟨hb, hle, hbest⟩ => ?_) h ⟨hb, hle, rfl⟩
  obtain ⟨before, after, node, elapsed, v, -, hvisit, rfl⟩ := hstep.exists_visit
  rw [state_absorb]
  exact ⟨has_of_visit hvisit hb, hle.trans (iterations_of_visit hvisit).1,
    (best_of_visit_of_le hb hle hvisit).trans hbest⟩

end Run

/-! ## Reports -/

/-- How a report stands to a ceiling: within it, or the last call passed it and the verdict is not
final. -/
inductive Report.Capped (ceiling : Nat) (report : Report α) : Prop
  | within (h : report.solution.iterations ≤ ceiling)
      (hpoints : pointsIn (callsOf report.journal) = report.solution.iterations)
  | passed {earlier : List (Call α)} {last : Call α}
      (hcalls : callsOf report.journal = earlier ++ [last])
      (hlast : last.answer.verdict.isFeasible = true) (hpoints : pointsIn earlier = ceiling)
      (hiterations : report.solution.iterations = ceiling + 1)
      (hstatus : report.solution.status = .feasible ∨ report.solution.status = .failed)

theorem Run.Capped.finish {ceiling : Nat} {r : Run α} (h : r.Capped ceiling) (elapsed : Nat) :
    (r.finish elapsed).Capped ceiling := by
  cases h with
  | within hle hpoints => exact .within hle (by rw [calls_finish]; exact hpoints)
  | passed hcalls hlast hpoints hiterations hincomplete =>
    refine .passed ((r.calls_finish elapsed).trans hcalls) hlast hpoints hiterations ?_
    rw [status_finish, hincomplete]
    cases r.state.board.best.isSome
    · exact Or.inr rfl
    · exact Or.inl rfl

theorem tighter_of_ceiling {ceiling n c : Nat} (hn : ceiling < n) (hc : ceiling ≤ c) :
    Tighter ceiling c n ceiling :=
  fun _ _ hi => ⟨hi.trans hn, hi.le, iff_of_true (hi.trans_le hc) hi⟩

/-- Where a run with a ceiling passes by the end of one that stops to solve nodes there, it has its
last incumbent. -/
theorem Run.Passes.best_eq {clock : Nat → Nat} {n ceiling c : Nat} {r s q t : Run α}
    (h : Passes search clock ceiling c r s q) (hb : r.state.budget.Has n ceiling)
    (hr : r.Capped ceiling) (hc : ceiling ≤ c) (hrun : run search clock r = .ok t) :
    t.state.board.best = s.state.board.best := by
  rw [h.state.board]
  rw [h.run_eq] at hrun
  rcases h.limited with hnil | hlimit
  · rw [run_of_pending_eq_nil hnil] at hrun
    rw [Except.ok.inj hrun]
  · have hle : ceiling ≤ q.state.budget.iterations := by
      rw [← h.state.iterations]
      omega
    exact best_of_reaches_of_le (hr.of_reaches hb h.reaches).1 hle (reaches_of_run hrun).1

/-- A search with a ceiling gives a report, in which no call comes after the one that passed it, and
with the point and value that it reports if it only stops to solve nodes there. -/
theorem ceiling_keeps_incumbent (search : Search α) (hcheck : search.settings.check = .ok ())
    (htime : search.settings.timeLimit = none)
    (hknown : ∀ var ∈ search.problem.integers, var < search.problem.size)
    (hanswers : ∀ (call : Nat) (node : Node α) (cutoff : Option (Cutoff α)),
      node.IsOver search.problem → ∃ answer, search.relaxation call node cutoff = .ok answer)
    {ceiling : Nat} (n : Nat) (hn : ceiling < n) (c : Nat) (hc : ceiling ≤ c)
    (warmStart : Option (Array α)) (clock clock' : Nat → Nat) : ∃ aborted soft,
    (search.withLimits n ceiling).solve warmStart clock = .ok aborted ∧
      (search.withLimits ceiling c).solve warmStart clock' = .ok soft ∧ aborted.Capped ceiling ∧
      aborted.solution.point = soft.solution.point ∧
      aborted.solution.objective = soft.solution.objective := by
  have hsolve : ∀ (n c : Nat) (clock : Nat → Nat),
      ∃ report, (search.withLimits n c).solve warmStart clock = .ok report := by
    intro n c clock
    -- the limits are no part of the problem
    have hknown' : ∀ var ∈ (search.withLimits n c).problem.integers,
        var < (search.withLimits n c).problem.size := hknown
    exact Search.solve_ok hknown' hcheck hanswers warmStart clock
  obtain ⟨aborted, haborted⟩ := hsolve n ceiling clock
  obtain ⟨soft, hsoft⟩ := hsolve ceiling c clock'
  refine ⟨aborted, soft, haborted, hsoft, ?_⟩
  obtain ⟨-, r, t, hstart, hrun, rfl⟩ := Search.solve_eq_ok haborted
  obtain ⟨-, r', s, hstart', hrun', rfl⟩ := Search.solve_eq_ok hsoft
  rcases Search.exists_passes_of_start (tighter_of_ceiling hn hc) htime clock' clock hstart' hstart
    with ⟨e, e', hfail, -⟩ | ⟨_, q, hend, -, hpasses⟩
  · rw [hrun'] at hfail
    cases hfail
  · obtain rfl := Except.ok.inj (hrun'.symm.trans hend)
    rw [Search.run_withLimits] at hrun
    have hb := Search.has_start htime hstart
    have hr : r.Capped ceiling := Run.capped_start hstart
    have hbest := hpasses.best_eq hb hr hc hrun
    refine ⟨(hr.of_reaches hb (reaches_of_run hrun).1).2.finish _, ?_, ?_⟩
    · show (t.state.board.best.map Incumbent.point).getD #[] = _
      rw [hbest]
      rfl
    · show (t.state.board.best.map Incumbent.objective).getD Scalar.nan = _
      rw [hbest]
      rfl

/-- The parabola with a ceiling of two: the third answer is dropped, and its point with it. -/
theorem ceiling_keeps_incumbent_parabola : ∃ aborted soft,
    let search := Parabola.search (.plain Parabola.answers)
    (search.withLimits 9 2).solve none (fun _ => 0) = .ok aborted ∧
      (search.withLimits 2 9).solve none (fun _ => 0) = .ok soft ∧ aborted.Capped 2 ∧
      aborted.solution.point = soft.solution.point ∧
      aborted.solution.objective = soft.solution.objective ∧ aborted.solution.iterations = 3 := by
  let search := Parabola.search (.plain Parabola.answers)
  obtain ⟨aborted, soft, haborted, hsoft, hcapped, hpoint, hobjective⟩ :=
    ceiling_keeps_incumbent search (by decide +kernel) rfl (by decide)
      (fun _ node _ _ => ⟨Parabola.answers node, rfl⟩) 9 (by decide : 2 < 9) 9 (by decide) none
      (fun _ => 0) fun _ => 0
  have hrun : ((search.withLimits 9 2).solve none fun _ => 0).toOption.map
      (fun report => report.solution.iterations) = some 3 := by decide +kernel
  obtain ⟨report, hreport, hiterations⟩ := exists_of_toOption_map hrun
  obtain rfl := Except.ok.inj (haborted.symm.trans hreport)
  exact ⟨aborted, soft, haborted, hsoft, hcapped, hpoint, hobjective, hiterations⟩

end BranchBound
