import BranchBound.Proofs.Accounting
import BranchBound.Proofs.Distance
import BranchBound.Proofs.Double.Parabola
import BranchBound.Proofs.Simulation
import BranchBound.Relaxation.Prescribed

/-!
# Incumbents

What a reported solution is, whatever the relaxation answers. A point becomes the incumbent in two
ways: as a warm start that was accepted, and as the point of a node that ended as whole
(`Search.Offers`). Either way it was checked before (`Search.Admits`): it has a finite value for
every variable and is whole within the tolerance, and the problem accepts it if the search
validates.

Along every schedule the incumbent is one of the points that were offered, and none of them beats it
(`Run.Holds`). A visit changes the incumbent in one way only, by an offer (`board_of_records`).
-/

namespace BranchBound

open Scalar

variable {α : Type} [Scalar α]

/-! ## Points that are offered -/

/-- Whether a search offered a point, as an accepted warm start or at a node that ended as whole. -/
def Search.Offers (search : Search α) (warmStart : Option (Array α)) (endings : List (Ending α))
    (x : Array α) : Prop :=
  (warmStart = some x ∧ search.acceptsStart x = .ok true) ∨
    ∃ e ∈ endings, e.fate = some .integerFound ∧ ∃ call, e.call = some call ∧ call.answer.point = x

theorem Search.offers_append {search : Search α} {warmStart : Option (Array α)}
    {endings : List (Ending α)} {e : Ending α} {x : Array α} :
    search.Offers warmStart (endings ++ [e]) x ↔ search.Offers warmStart endings x ∨
      e.fate = some .integerFound ∧ ∃ call, e.call = some call ∧ call.answer.point = x := by
  unfold Offers
  simp only [List.mem_append, List.mem_singleton, or_and_right, exists_or, exists_eq_left, or_assoc]

/-- What is known of a point that can be the incumbent. -/
structure Search.Admits [Lawful α] (search : Search α) (x : Array α) : Prop where
  size : x.size = search.problem.size
  finite : ∀ v ∈ x, isFinite v = true
  /-- The whole variables are within the tolerance of an integer. -/
  near : ∀ var ∈ search.problem.integers, ∃ (v : α) (q : ℚ) (n : ℤ), x[var]? = some v ∧
    Lawful.value v = .ofRat q ∧ .ofRat |q - n| ≤ Lawful.value search.settings.integrality
  accepted : search.settings.validate = true → search.problem.accepts x = true

section

variable {search : Search α} {x : Array α}

theorem Visit.accepts_of_isUsable (h : isUsable search x = true)
    (hvalidate : search.settings.validate = true) : search.problem.accepts x = true := by
  unfold isUsable at h
  rw [hvalidate, Bool.and_eq_true, Bool.not_true, Bool.false_or] at h
  exact h.2

theorem Criteria.fractionality_of_allWhole {c : Criteria α} {vars : List Nat}
    (h : c.allWhole x vars = .ok true) :
    ∀ var ∈ vars, ∃ v, x[var]? = some v ∧ fractionality v ≤ c.integrality := by
  induction vars with
  | nil => exact fun var hvar => nomatch hvar
  | cons first rest ih =>
    obtain ⟨value, hvalue, h⟩ := bind_eq_ok.mp h
    split at h
    · rename_i hnear
      intro var hvar
      rcases List.mem_cons.mp hvar with rfl | hrest
      · exact ⟨value, entry_eq_ok_iff.mp hvalue, hnear⟩
      · exact ih h var hrest
    · cases h

variable [Measured α]

/-- The point of a node that ends as whole was checked by the relaxation's answer being usable and
by the search for a branching. -/
theorem admits_of_branching {node : Node α} (hcheck : search.settings.check = .ok ())
    (hover : node.IsOver search.problem) (husable : Visit.isUsable search x = true)
    (h : search.criteria.branching? x node = .ok none) : search.Admits x where
  size := Visit.size_of_isUsable husable
  finite := Visit.finite_of_isUsable husable
  near var hvar := by
    obtain ⟨-, -, ⟨htolerance, -⟩, -⟩ := Settings.check_eq_ok_iff.mp hcheck
    obtain ⟨i, hi⟩ := Array.getElem?_of_mem hvar
    rw [← hover.1] at hi
    obtain ⟨v, hv, hnot⟩ := Criteria.branching?_eq_none h hi
    have hfinite := Visit.finite_of_isUsable husable v (Array.mem_of_getElem? hv)
    obtain ⟨q, n, hq, hnear⟩ := exists_near_of_not_lt hfinite htolerance hnot
    exact ⟨v, q, n, hv, hq, hnear⟩
  accepted := Visit.accepts_of_isUsable husable

/-- An accepted warm start was checked by the problem first, and then for being whole. -/
theorem admits_of_acceptsStart
    (hfinite : search.problem.accepts x = true → ∀ v ∈ x, isFinite v = true)
    (h : search.acceptsStart x = .ok true) : search.Admits x := by
  unfold Search.acceptsStart at h
  split at h
  · rename_i hchecked
    rw [Bool.and_eq_true, beq_iff_eq] at hchecked
    refine ⟨hchecked.1, hfinite hchecked.2, fun var hvar => ?_, fun _ => hchecked.2⟩
    obtain ⟨v, hv, hle⟩ :=
      Criteria.fractionality_of_allWhole h var (Array.mem_toList_iff.mpr hvar)
    have hv' := hfinite hchecked.2 v (Array.mem_of_getElem? hv)
    obtain ⟨q, n, hq, hnear⟩ := exists_near_of_le hv' hle
    exact ⟨v, q, n, hv, hq, hnear⟩
  · cases h

end

/-! ## Offers to the scoreboard -/

namespace Scoreboard

/-- What a scoreboard says about the points that were offered to it: the incumbent is one of them
and was checked before, and none of them beats it. -/
structure Stands [Lawful α] (search : Search α) (offered : Array α → Prop)
    (board : Scoreboard α) : Prop where
  settled : board.best = none ↔ board.improvements = 0
  best : ∀ best, board.best = some best → offered best.point ∧ search.Admits best.point
  unbeaten : ∀ x, offered x → isNaN (search.problem.objective x) = false →
    ∃ best, board.best = some best ∧
      search.problem.sense.better (search.problem.objective x) best.objective = false

variable {search : Search α} {offered offered' : Array α → Prop} {board : Scoreboard α}

/-- Before anything was offered there is no incumbent. -/
theorem stands_empty [Lawful α] (h : ∀ x, ¬offered x) :
    Stands search offered { sense := search.problem.sense } where
  settled := ⟨fun _ => rfl, fun _ => rfl⟩
  best _ hb := nomatch hb
  unbeaten x hx := absurd hx (h x)

namespace Stands

/-- What keeps the incumbent and the improvements keeps it standing. -/
theorem congr [Lawful α] {board' : Scoreboard α} (h : board.Stands search offered)
    (hbest : board'.best = board.best) (himprovements : board'.improvements = board.improvements)
    (hoffered : ∀ x, offered' x ↔ offered x) : board'.Stands search offered' where
  settled := by
    rw [hbest, himprovements]
    exact h.settled
  best best hb := by
    rw [hbest] at hb
    rw [hoffered]
    exact h.best best hb
  unbeaten x hx := by
    rw [hbest]
    exact h.unbeaten x ((hoffered x).mp hx)

/-- A checked point is offered. -/
theorem offer [Measured α] (h : board.Stands search offered)
    (hsense : board.sense = search.problem.sense) {x : Array α} (hx : search.Admits x)
    (hoffered : ∀ y, offered' y ↔ offered y ∨ y = x) :
    (board.offer x (search.problem.objective x)).2.Stands search offered' where
  settled := by
    have hsettled := h.settled
    rw [best_offer, improvements_offer]
    cases (board.offer x (search.problem.objective x)).1 <;> simp [hsettled]
  best best hb := by
    rcases board.best_offer_cases x (search.problem.objective x) with hold | ⟨htaken, -⟩
    · rw [hold] at hb
      obtain ⟨hoffers, hadmits⟩ := h.best best hb
      exact ⟨(hoffered _).mpr (Or.inl hoffers), hadmits⟩
    · rw [htaken] at hb
      obtain rfl := Option.some.inj hb
      exact ⟨(hoffered _).mpr (Or.inr rfl), hx⟩
  unbeaten y hy hvalid := by
    rw [← hsense]
    rcases (hoffered y).mp hy with hold | rfl
    · obtain ⟨best, hbest, hnot⟩ := h.unbeaten y hold hvalid
      obtain ⟨best', hbest', hcases⟩ :=
        Scoreboard.best_offer_of_some board (x := x) hbest
      rw [← hsense] at hnot
      refine ⟨best', hbest', ?_⟩
      rcases hcases with rfl | hbetter
      · exact hnot
      · -- what beats the new incumbent would have beaten the old one
        by_contra hbeats
        rw [Bool.not_eq_false] at hbeats
        rw [Sense.better_trans hbeats hbetter] at hnot
        cases hnot
    · exact board.exists_best_offer hvalid

end Stands

end Scoreboard

/-- A visit whose node ends as whole offers the point that it was called about, and every other one
leaves the incumbent and the improvements as they are. -/
theorem Visit.Records.board {search : Search α} {elapsed : Nat} {σ : State α} {node : Node α}
    {v : Visit α} {e : Ending α} (he : v.Records search σ node e)
    (h : visit search elapsed σ node = .ok v) :
    (e.fate ≠ some .integerFound ∧ v.state.board.best = σ.board.best ∧
      v.state.board.improvements = σ.board.improvements) ∨
    ∃ answer events, Visit.Takes search elapsed σ node answer events ∧
      search.criteria.branching? answer.point node = .ok none ∧ e.fate = some .integerFound ∧
      (∃ call, e.call = some call ∧ call.answer = answer) ∧ v.state.board =
        (σ.board.countSolved.offer answer.point (search.problem.objective answer.point)).2 := by
  have hfate := he.fate
  cases Visit.course_of_visit h with
  | @whole answer events takes hnone =>
    refine Or.inr ⟨_, _, takes, hnone, hfate.symm, ?_, rfl⟩
    have hcalls := calls_of_visit h
    rw [if_pos takes.asks] at hcalls
    obtain ⟨⟨answer', hanswer, hevents⟩, -⟩ := hcalls
    obtain rfl := Except.ok.inj (takes.answered.symm.trans hanswer)
    have hlist := he.calls.symm.trans hevents
    cases hcall : e.call with
    | none =>
      rw [hcall] at hlist
      cases hlist
    | some call =>
      rw [hcall] at hlist
      obtain rfl := List.head_eq_of_cons_eq hlist
      exact ⟨_, rfl, rfl⟩
  | outOfBudget | seenBefore | unpromising | noPoint | overCeiling | unusable | dominated | split =>
    refine Or.inl ⟨?_, rfl, rfl⟩
    rw [← hfate]
    simp [Outcome.fate?, Visit.close]

/-! ## The incumbent of a run -/

/-- What a run keeps about its incumbent, with the endings of the nodes so far. -/
structure Run.Holds [Lawful α] (search : Search α) (warmStart : Option (Array α)) (r : Run α)
    (endings : List (Ending α)) : Prop where
  accounted : r.Accounted search (search.seeds warmStart) endings
  coherent : r.Coherent search
  stands : r.state.board.Stands search (search.Offers warmStart endings)

namespace Run

variable {search : Search α} {warmStart : Option (Array α)} {r s : Run α}
  {endings : List (Ending α)} [Measured α]

theorem Holds.of_advances (hcheck : search.settings.check = .ok ())
    (hr : r.Holds search warmStart endings) (h : Advances search r s) :
    ∃ e, s.Holds search warmStart (endings ++ [e]) := by
  have hcoherent := hr.coherent.of_advances h
  obtain ⟨before, after, node, elapsed, v, hperm, hvisit, rfl⟩ := h.exists_visit
  obtain ⟨e, he⟩ := Visit.exists_records hvisit
  have hnode : node.IsOver search.problem :=
    hr.coherent.isOver node (hperm.mem_iff.mpr List.mem_cons_self)
  refine ⟨e, hr.accounted.of_records hperm he, hcoherent, ?_⟩
  rw [state_absorb]
  rcases he.board hvisit with ⟨hfate, hbest, himprovements⟩ |
    ⟨answer, events, takes, hnone, hfate, ⟨call, hcall, rfl⟩, hboard⟩
  · refine hr.stands.congr hbest himprovements fun x => ?_
    rw [Search.offers_append]
    exact or_iff_left fun h => hfate h.1
  · have hcounted : r.state.board.countSolved.Stands search (search.Offers warmStart endings) :=
      hr.stands.congr rfl rfl fun _ => Iff.rfl
    rw [hboard]
    refine hcounted.offer hr.coherent.sense
      (admits_of_branching hcheck hnode takes.usable hnone) fun x => ?_
    rw [Search.offers_append, hcall]
    simp [hfate, eq_comm]

/-- Before the first visit only the warm start can be the incumbent. -/
theorem holds_start
    (hfinite : ∀ x, search.problem.accepts x = true → ∀ v ∈ x, isFinite v = true)
    (h : search.start warmStart = .ok r) : r.Holds search warmStart [] := by
  obtain ⟨-, hopens, -⟩ := Search.start_eq_ok h
  refine ⟨accounted_start h, coherent_start h, ?_⟩
  generalize r.state = σ at hopens
  cases hopens with
  | cold hrefused =>
    refine Scoreboard.stands_empty ?_
    rintro x (⟨hx, haccepts⟩ | ⟨e, he, -⟩)
    · rw [hrefused x hx] at haccepts
      cases haccepts
    · cases he
  | @warm x hx haccepts =>
    have hempty : (State.initial search).board.Stands search fun _ => False :=
      Scoreboard.stands_empty fun _ => id
    refine hempty.offer rfl (admits_of_acceptsStart (hfinite x) haccepts) fun y => ?_
    simp only [Search.Offers, hx, List.not_mem_nil, false_and, exists_false, or_false, false_or,
      Option.some.injEq]
    exact ⟨fun h => h.1.symm, by rintro rfl; exact ⟨rfl, haccepts⟩⟩

/-- Along every schedule. -/
theorem Holds.of_reaches (hcheck : search.settings.check = .ok ())
    (hr : r.Holds search warmStart endings) (h : Reaches search r s) :
    ∃ endings, s.Holds search warmStart endings :=
  invariant_of_reaches (P := fun s => ∃ endings, s.Holds search warmStart endings)
    (fun hstep ⟨_, hr⟩ => (hr.of_advances hcheck hstep).imp' (_ ++ [·]) fun _ h => h) h
    ⟨endings, hr⟩

end Run

/-! ## Reports -/

/-- What a report owes about the solution in it. -/
structure Report.WellFormed [Lawful α] (search : Search α) (warmStart : Option (Array α))
    (report : Report α) : Prop where
  /-- A solution is a point that was offered and checked, with its valid objective value, and no
  point that was offered is better. -/
  found : report.solution.status.hasSolution = true →
    search.Offers warmStart (endingsOf report.journal) report.solution.point ∧
    search.Admits report.solution.point ∧
    report.solution.objective = search.problem.objective report.solution.point ∧
    isNaN report.solution.objective = false ∧
    (∀ x, search.Offers warmStart (endingsOf report.journal) x →
      search.problem.sense.better (search.problem.objective x) report.solution.objective = false) ∧
    1 ≤ report.solution.improvements
  /-- Without a solution nothing is left in its place, and whatever was offered was invalid. -/
  none : report.solution.status.hasSolution = false →
    report.solution.point = #[] ∧ isNaN report.solution.objective = true ∧
    report.solution.improvements = 0 ∧
    ∀ x, search.Offers warmStart (endingsOf report.journal) x →
      isNaN (search.problem.objective x) = true

/-- No valid value is worse than an invalid one. -/
theorem Sense.not_better_of_isNaN [Lawful α] {sense : Sense} {a b : α} (h : isNaN a = true) :
    sense.better a b = false := by
  rw [Lawful.isNaN_eq] at h
  rw [better_iff]
  cases ha : Lawful.value a with
  | nan => exact not_nan_better _
  | _ =>
    rw [ha] at h
    cases h

theorem Run.Holds.wellFormed [Measured α] {search : Search α} {warmStart : Option (Array α)}
    {r : Run α} {endings : List (Ending α)} (h : r.Holds search warmStart endings) (elapsed : Nat) :
    (r.finish elapsed).WellFormed search warmStart := by
  obtain ⟨hendings, -⟩ := h.accounted.finish elapsed
  have hstatus : (r.finish elapsed).solution.status.hasSolution = r.state.board.best.isSome := by
    rw [status_finish, Status.hasSolution_ofOutcome]
  constructor
  · rw [hstatus, hendings]
    intro hsome
    obtain ⟨best, hbest⟩ := Option.isSome_iff_exists.mp hsome
    obtain ⟨hpoint, hobjective⟩ := solution_finish elapsed hbest
    obtain ⟨hvalid, hvalue⟩ := h.coherent.best best hbest
    obtain ⟨hoffers, hadmits⟩ := h.stands.best best hbest
    rw [hpoint, hobjective]
    refine ⟨hoffers, hadmits, hvalue, hvalid, fun x hx => ?_, ?_⟩
    · cases hx' : isNaN (search.problem.objective x) with
      | true => exact Sense.not_better_of_isNaN hx'
      | false =>
        obtain ⟨best', hbest', hnot⟩ := h.stands.unbeaten x hx hx'
        rw [hbest] at hbest'
        obtain rfl := Option.some.inj hbest'
        exact hnot
    · refine Nat.one_le_iff_ne_zero.mpr fun hzero => ?_
      rw [h.stands.settled.mpr hzero] at hbest
      cases hbest
  · rw [hstatus, hendings]
    intro hnone
    rw [Option.isSome_eq_false_iff, Option.isNone_iff_eq_none] at hnone
    refine ⟨?_, ?_, h.stands.settled.mp hnone, fun x hx => ?_⟩
    · show (r.state.board.best.map Incumbent.point).getD #[] = #[]
      rw [hnone]
      rfl
    · show isNaN ((r.state.board.best.map Incumbent.objective).getD nan) = true
      rw [hnone, Lawful.isNaN_eq]
      show isNaN (Lawful.value (nan : α)) = true
      rw [Measured.value_nan]
      rfl
    · cases hx' : isNaN (search.problem.objective x) with
      | true => rfl
      | false =>
        obtain ⟨best, hbest, -⟩ := h.stands.unbeaten x hx hx'
        rw [hnone] at hbest
        cases hbest

/-- The problem of a program accepts only points with finite values. -/
theorem Program.finite_of_accepts {p : Program α} {x : Array α} (h : p.accepts x = true) :
    ∀ v ∈ x, isFinite v = true := by
  unfold accepts at h
  simp only [Bool.and_eq_true, Array.all_eq_true_iff_forall_mem] at h
  exact h.1.1.2

/-- Wherever a run gets to along some schedule, the report that it would end with is well formed. -/
theorem Run.wellFormed_of_reaches [Measured α] {search : Search α} {warmStart : Option (Array α)}
    {start r : Run α} (hcheck : search.settings.check = .ok ())
    (hfinite : ∀ x, search.problem.accepts x = true → ∀ v ∈ x, isFinite v = true)
    (hstart : search.start warmStart = .ok start) (hreaches : Reaches search start r)
    (elapsed : Nat) : (r.finish elapsed).WellFormed search warmStart := by
  obtain ⟨endings, hr⟩ := (holds_start hfinite hstart).of_reaches hcheck hreaches
  exact hr.wellFormed elapsed

/-- Every report on a program is well formed, whatever the relaxation answers, the warm start is, and
the clock shows: that of the depth-first search, and that of every run that visits any pending node
next, until none is pending or until it is cut short. -/
theorem report_wellFormed [Measured α] (p : Program α) (relaxation : Relaxation α)
    (settings : Settings α) (warmStart : Option (Array α)) (clock : Nat → Nat) :
    let search : Search α := ⟨p.problem, relaxation, settings⟩
    (∀ report, search.solve warmStart clock = .ok report → report.WellFormed search warmStart) ∧
    (settings.check = .ok () → ∀ start r, search.start warmStart = .ok start →
      Run.Reaches search start r → ∀ elapsed, (r.finish elapsed).WellFormed search warmStart) := by
  intro search
  have hfinite : ∀ x, search.problem.accepts x = true → ∀ v ∈ x, isFinite v = true :=
    fun _ => Program.finite_of_accepts
  constructor
  · intro report hsolve
    obtain ⟨hcheck, start, s, hstart, hrun, rfl⟩ := Search.solve_eq_ok hsolve
    exact Run.wellFormed_of_reaches hcheck hfinite hstart (reaches_of_run hrun).1 _
  · intro hcheck start r hstart hreaches
    exact Run.wellFormed_of_reaches hcheck hfinite hstart hreaches

namespace Garbled

def steps : List (Program.Step Float) :=
  [.allBounds 0.0 3.0, .integer 0, .row #[1.0] 2.75]

/-- A point to branch on, one that is too long, another one to branch on, one that is nearly whole
with an invalid value, and one that is infinite. -/
def answers : Array (Answer Float) :=
  #[.optimal #[1.5] 9.0, ⟨.feasible, 3.0, #[1.0, 2.0]⟩, .optimal #[2.5] 0.0,
    .optimal #[2.0000000001] Double.nan, .optimal #[Double.inf] 1.0]

def search (p : Program Float) : Search Float :=
  ⟨p.problem, .replay answers, { Settings.standard with validate := true }⟩

end Garbled

/-- A search that is given such answers reports the point that is nearly whole, with the value that
the program has there and not with the one of the answer. So does a run that takes up the second
child of every node first. -/
theorem report_wellFormed_garbled : ∃ p report start r,
    Program.build .maximise #[2.0] Garbled.steps = .ok p ∧
    (Garbled.search p).solve (some #[1.0]) (fun _ => 0) = .ok report ∧
    report.WellFormed (Garbled.search p) (some #[1.0]) ∧
    report.solution.status = .feasible ∧ report.solution.improvements = 2 ∧
    (Garbled.search p).start (some #[1.0]) = .ok start ∧
    start.follow (Garbled.search p) [0, 1, 0, 1, 0] = .ok r ∧ r.pending = [] ∧
    (r.finish 0).WellFormed (Garbled.search p) (some #[1.0]) ∧
    (r.finish 0).solution.status = .feasible ∧ (r.finish 0).solution.improvements = 2 := by
  obtain ⟨p, hp, hruns⟩ : ∃ p, Program.build .maximise #[2.0] Garbled.steps = .ok p ∧
      ((((Garbled.search p).solve (some #[1.0]) (fun _ => 0)).toOption.map
        fun report => (report.solution.status, report.solution.improvements)),
       ((Garbled.search p).start (some #[1.0]) >>=
          (·.follow (Garbled.search p) [0, 1, 0, 1, 0])).toOption.map fun r =>
            (r.pending.length, (r.finish 0).solution.status, (r.finish 0).solution.improvements)) =
        (some (.feasible, 2), some (0, .feasible, 2)) := by
    refine exists_of_toOption_map ?_
    decide +kernel
  obtain ⟨hrun, hscheduled⟩ := Prod.mk.inj hruns
  obtain ⟨report, hsolve, hfound⟩ := exists_of_toOption_map hrun
  obtain ⟨hstatus, himprovements⟩ := Prod.mk.inj hfound
  obtain ⟨r, hboth, hends⟩ := exists_of_toOption_map hscheduled
  obtain ⟨start, hstart, hr⟩ := bind_eq_ok.mp hboth
  simp only [Prod.mk.injEq, List.length_eq_zero_iff] at hends
  obtain ⟨hpending, hstatus', himprovements'⟩ := hends
  obtain ⟨hreport, hschedule⟩ := report_wellFormed p (.replay Garbled.answers)
    { Settings.standard with validate := true } (some #[1.0]) fun _ => 0
  exact ⟨p, report, start, r, hp, hsolve, hreport report hsolve, hstatus, himprovements, hstart, hr,
    hpending, hschedule (by decide +kernel) start r hstart (Run.reaches_of_follow hr) 0, hstatus',
    himprovements'⟩

end BranchBound
