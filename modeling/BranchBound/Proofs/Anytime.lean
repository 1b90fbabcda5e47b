import BranchBound.Proofs.Double.Parabola
import BranchBound.Proofs.Heeding
import BranchBound.Proofs.Limits

/-!
# Searching on

A search with more iterations first does all that one with fewer does: the same calls with the same
answers, in the same order. What it does after that only improves the incumbent, and if the shorter
search came to an end of its own there is nothing left to do (`budget_anytime`).
-/

namespace BranchBound

variable {α : Type} [Scalar α]

/-- What the report of a longer search owes to that of a shorter one. -/
structure Report.Continues (sense : Sense) (short long : Report α) : Prop where
  calls : callsOf short.journal <+: callsOf long.journal
  /-- A solution is kept, or a better one takes its place. -/
  best : short.solution.status.hasSolution = true → long.solution.status.hasSolution = true ∧
    (long.solution.point = short.solution.point ∧
        long.solution.objective = short.solution.objective ∨
      sense.better long.solution.objective short.solution.objective = true)
  /-- After a final verdict all is the same but the time. -/
  final : short.solution.status = .optimal ∨ short.solution.status = .infeasible →
    { long.solution with elapsed := short.solution.elapsed } = short.solution

variable {search : Search α}

namespace Run

variable {clock : Nat → Nat} {n c : Nat} {r s q t : Run α}

/-- A solution is that of the state and of whether something was left out, but for the time. -/
theorem solution_congr (hstate : s.state.Alike t.state) (hcomplete : s.complete = t.complete)
    (elapsed elapsed' : Nat) :
    { (t.finish elapsed').solution with elapsed } = (s.finish elapsed).solution := by
  unfold finish solution
  rw [hstate.board, hstate.iterations, hcomplete]

/-- If nothing was left out where a run was passed by, that is the other one's end as well. -/
theorem Passes.eq_of_complete (h : Passes search clock n c r s q) (hrun : run search clock r = .ok t)
    (hcomplete : s.complete = true) : t = q := by
  have hs := h.complete
  rw [hcomplete, eq_comm, Bool.and_eq_true, List.isEmpty_iff] at hs
  rw [h.run_eq, run_of_pending_eq_nil hs.2] at hrun
  exact (Except.ok.inj hrun).symm

/-- The end of a run continues that of one that it passed by. -/
theorem Passes.continues [Lawful α] (h : Passes search clock n c r s q)
    (hsense : s.state.board.sense = search.problem.sense) (hrun : run search clock r = .ok t)
    (elapsed elapsed' : Nat) :
    (s.finish elapsed).Continues search.problem.sense (t.finish elapsed') := by
  have hreaches : Reaches search q t := by
    rw [h.run_eq] at hrun
    exact (reaches_of_run hrun).1
  obtain ⟨hcalls, hbest⟩ := extends_of_reaches (by rw [← h.state.board]; exact hsense) hreaches
  refine ⟨?_, fun hfound => ?_, fun hfinal => ?_⟩
  · rw [calls_finish, calls_finish, h.calls]
    exact hcalls
  · rw [status_finish, Status.hasSolution_ofOutcome] at hfound
    obtain ⟨best, hs⟩ := Option.isSome_iff_exists.mp hfound
    obtain ⟨best', ht, hcases⟩ := hbest best (by rw [← h.state.board]; exact hs)
    obtain ⟨hpoint, hobjective⟩ := solution_finish elapsed hs
    obtain ⟨hpoint', hobjective'⟩ := solution_finish elapsed' ht
    rw [status_finish, Status.hasSolution_ofOutcome, ht, hpoint, hobjective, hpoint', hobjective']
    refine ⟨rfl, ?_⟩
    rcases hcases with rfl | hbetter
    · exact Or.inl ⟨rfl, rfl⟩
    · exact Or.inr hbetter
  · have hcomplete := complete_of_status hfinal
    obtain rfl := h.eq_of_complete hrun hcomplete
    have hs := h.complete
    rw [hcomplete, eq_comm, Bool.and_eq_true] at hs
    exact solution_congr h.state (hcomplete.trans hs.1.symm) elapsed elapsed'

end Run

theorem tighter_of_le {n m : Nat} (h : n ≤ m) (c : Nat) : Tighter n c m c :=
  fun _ hc hn => ⟨hn.trans_le h, hc, Iff.rfl⟩

/-- Without a time limit, a search with more iterations continues one with fewer, whatever the clocks
show. The shorter one gives a report if the longer one does, and the longer one if the shorter one
has a final verdict. -/
theorem budget_anytime [Lawful α] (search : Search α) (htime : search.settings.timeLimit = none)
    {n m : Nat} (hle : n ≤ m) (ceiling : Nat) (warmStart : Option (Array α)) (clock clock' : Nat → Nat) :
    (∀ long, (search.withLimits m ceiling).solve warmStart clock' = .ok long →
      ∃ short, (search.withLimits n ceiling).solve warmStart clock = .ok short) ∧
    ∀ short, (search.withLimits n ceiling).solve warmStart clock = .ok short →
      (short.solution.status = .optimal ∨ short.solution.status = .infeasible →
        ∃ long, (search.withLimits m ceiling).solve warmStart clock' = .ok long) ∧
      ∀ long, (search.withLimits m ceiling).solve warmStart clock' = .ok long →
        short.Continues search.problem.sense long := by
  have htighter := tighter_of_le hle ceiling
  constructor
  · intro long hlong
    obtain ⟨hcheck, r', t, hstart', hrun', -⟩ := Search.solve_eq_ok hlong
    obtain ⟨r, hstart, -⟩ := Search.exists_alike_start n ceiling hstart'
    rcases Search.exists_passes_of_start htighter htime clock clock' hstart hstart' with
      ⟨e, e', -, hfail⟩ | ⟨s, q, hrun, -, -⟩
    · rw [hrun'] at hfail
      cases hfail
    · have hcheck' : (search.withLimits n ceiling).settings.check = .ok () := hcheck
      exact ⟨_, Search.solve_of_run hcheck' hstart hrun⟩
  · intro short hshort
    obtain ⟨hcheck, r, s, hstart, hrun, rfl⟩ := Search.solve_eq_ok hshort
    obtain ⟨r', hstart', -⟩ := Search.exists_alike_start m ceiling hstart
    rcases Search.exists_passes_of_start htighter htime clock clock' hstart hstart' with
      ⟨e, e', hfail, -⟩ | ⟨_, q, hend, hsense, hpasses⟩
    · rw [hrun] at hfail
      cases hfail
    · obtain rfl := Except.ok.inj (hrun.symm.trans hend)
      constructor
      · intro hfinal
        have hcomplete := hpasses.complete
        rw [Run.complete_of_status hfinal, eq_comm, Bool.and_eq_true, List.isEmpty_iff] at hcomplete
        have hrun' : run (search.withLimits m ceiling) clock' r' = .ok q := by
          rw [Search.run_withLimits, hpasses.run_eq, run_of_pending_eq_nil hcomplete.2]
        have hcheck' : (search.withLimits m ceiling).settings.check = .ok () := hcheck
        exact ⟨_, Search.solve_of_run hcheck' hstart' hrun'⟩
      · intro long hlong
        obtain ⟨-, _, t, hstart, hrun', rfl⟩ := Search.solve_eq_ok hlong
        obtain rfl := Except.ok.inj (hstart'.symm.trans hstart)
        rw [Search.run_withLimits] at hrun'
        exact hpasses.continues hsense hrun' _ _

/-- The parabola: two iterations find its best whole point, and nine show that there is no better
one. -/
theorem budget_anytime_parabola : ∃ short long,
    let search := Parabola.search (.plain Parabola.answers)
    (search.withLimits 2 9).solve none (fun _ => 0) = .ok short ∧
      (search.withLimits 9 9).solve none (fun n => n) = .ok long ∧
      short.Continues .maximise long ∧ short.solution.status = .feasible ∧
      long.solution.status = .optimal := by
  let search := Parabola.search (.plain Parabola.answers)
  have hshort : ((search.withLimits 2 9).solve none fun _ => 0).toOption.map
      (fun report => report.solution.status) = some .feasible := by decide +kernel
  have hlong : ((search.withLimits 9 9).solve none fun n => n).toOption.map
      (fun report => report.solution.status) = some .optimal := by decide +kernel
  obtain ⟨short, hshort, hfeasible⟩ := exists_of_toOption_map hshort
  obtain ⟨long, hlong, hoptimal⟩ := exists_of_toOption_map hlong
  obtain ⟨-, hcontinues⟩ := budget_anytime search rfl (by decide : 2 ≤ 9) 9 none
    (fun _ => 0) fun n => n
  exact ⟨short, long, hshort, hlong, (hcontinues short hshort).2 long hlong, hfeasible, hoptimal⟩

end BranchBound
