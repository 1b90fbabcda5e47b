import BranchBound.Search.Visit

/-!
# What a visit can do

Every way in which a visit can end, with all that was checked on the way: `Visit.Course`. A visit
ends in one of these ways and each of them is a visit (`visit_eq_ok_iff`), so facts about visits are
proved by cases on the course and the definition of a visit is opened here only.

The states on the way differ in one field each: the box of the node is marked, the call is counted,
an iteration is spent, a point is offered.
-/

namespace BranchBound

variable {α : Type}

/-! ## States on the way -/

namespace State

variable (σ : State α) (node : Node α)

/-- The state once the box of a node is marked. -/
def marked : State α := { σ with visited := (σ.visited.mark node).2 }

/-- The state once the relaxation was asked about a node. -/
def asked : State α := { σ.marked node with board := σ.board.countSolved }

/-- The state once an iteration was spent on the answer. -/
def counted : State α := { σ.asked node with budget := σ.budget.spend }

/-- The state once a point was offered. -/
def offered [Scalar α] (x : Array α) (objective : α) : State α :=
  { σ.counted node with board := (σ.board.countSolved.offer x objective).2 }

@[simp] theorem budget_asked : (σ.asked node).budget = σ.budget := rfl

@[simp] theorem budget_counted : (σ.counted node).budget = σ.budget.spend := rfl

@[simp] theorem bestValue_counted : (σ.counted node).board.bestValue = σ.board.bestValue := rfl

end State

variable [Scalar α]

/-! ## Courses -/

namespace Visit

theorem size_of_isUsable {search : Search α} {x : Array α} (h : isUsable search x = true) :
    x.size = search.problem.size := by
  unfold isUsable at h
  rw [Bool.and_eq_true, Bool.and_eq_true] at h
  exact eq_of_beq h.1.1

theorem finite_of_isUsable {search : Search α} {x : Array α} (h : isUsable search x = true) :
    ∀ v ∈ x, Scalar.isFinite v = true := by
  unfold isUsable at h
  rw [Bool.and_eq_true, Bool.and_eq_true, Array.all_eq_true_iff_forall_mem] at h
  exact h.1.2

/-- The relaxation is asked about a node: the budget allows it, the box is new and the estimate may
beat the incumbent. The events are the call and the progress. -/
structure Asks (search : Search α) (elapsed : Nat) (σ : State α) (node : Node α)
    (answer : Answer α) (events : List (Event α)) : Prop where
  allowed : σ.budget.allows elapsed = true
  isNew : (σ.visited.mark node).1 = true
  promising : search.criteria.mayImprove node.estimate σ.board.bestValue = true
  answered : search.relaxation σ.board.solved node
    (search.criteria.cutoff? σ.board.bestValue) = .ok answer
  reported : ∃ report, progress search elapsed (σ.asked node) = .ok report ∧
    events = .called node (search.criteria.cutoff? σ.board.bestValue) answer :: report

/-- The answer has a point that can be used, and the count of iterations is within the ceiling. -/
structure Takes (search : Search α) (elapsed : Nat) (σ : State α) (node : Node α)
    (answer : Answer α) (events : List (Event α)) : Prop
    extends Asks search elapsed σ node answer events where
  feasible : answer.verdict.isFeasible = true
  affordable : σ.budget.spend.isExhausted = false
  usable : isUsable search answer.point = true

/-- The ways in which a visit can end. -/
inductive Course (search : Search α) (elapsed : Nat) (σ : State α) (node : Node α) :
    Visit α → Prop
  | outOfBudget (h : σ.budget.allows elapsed = false) :
    Course search elapsed σ node (close σ [] node .budgetExceeded)
  | seenBefore (allowed : σ.budget.allows elapsed = true)
      (h : (σ.visited.mark node).1 = false) :
    Course search elapsed σ node (close (σ.marked node) [] node .duplicate)
  | unpromising (allowed : σ.budget.allows elapsed = true)
      (isNew : (σ.visited.mark node).1 = true)
      (h : search.criteria.mayImprove node.estimate σ.board.bestValue = false) :
    Course search elapsed σ node (close (σ.marked node) [] node .pruned)
  | noPoint {answer : Answer α} {events : List (Event α)}
      (asks : Asks search elapsed σ node answer events)
      (h : answer.verdict.isFeasible = false) :
    Course search elapsed σ node (close (σ.asked node) events node .infeasibleOrFailed)
  | overCeiling {answer : Answer α} {events : List (Event α)}
      (asks : Asks search elapsed σ node answer events)
      (feasible : answer.verdict.isFeasible = true)
      (h : σ.budget.spend.isExhausted = true) :
    Course search elapsed σ node
      ⟨.ceilingPassed σ.budget.spend.iterations σ.budget.ceiling, σ.counted node,
        events ++ [.ceilingPassed node σ.budget.spend.iterations σ.budget.ceiling]⟩
  | unusable {answer : Answer α} {events : List (Event α)}
      (asks : Asks search elapsed σ node answer events)
      (feasible : answer.verdict.isFeasible = true)
      (affordable : σ.budget.spend.isExhausted = false)
      (h : isUsable search answer.point = false) :
    Course search elapsed σ node
      (close (σ.counted node) (events ++ [.invalidPoint answer.verdict node]) node .invalid)
  | whole {answer : Answer α} {events : List (Event α)}
      (takes : Takes search elapsed σ node answer events)
      (h : search.criteria.branching? answer.point node = .ok none) :
    Course search elapsed σ node
      (close (σ.offered node answer.point (search.problem.objective answer.point))
        (events ++ if (σ.board.countSolved.offer answer.point
            (search.problem.objective answer.point)).1
          then [.improved (search.problem.objective answer.point) node.depth] else [])
        node .integerFound)
  | dominated {answer : Answer α} {events : List (Event α)} {branching : Branching α}
      (takes : Takes search elapsed σ node answer events)
      (hbranching : search.criteria.branching? answer.point node = .ok (some branching))
      (h : search.criteria.mayImprove (search.problem.objective answer.point)
        σ.board.bestValue = false) :
    Course search elapsed σ node (close (σ.counted node) events node .pruned)
  | split {answer : Answer α} {events : List (Event α)} {branching : Branching α} {s : Split α}
      (takes : Takes search elapsed σ node answer events)
      (hbranching : search.criteria.branching? answer.point node = .ok (some branching))
      (improves : search.criteria.mayImprove (search.problem.objective answer.point)
        σ.board.bestValue = true)
      (hsplit : node.split branching (search.problem.objective answer.point) = .ok s) :
    Course search elapsed σ node
      ⟨.branched s.continued s.forked, σ.counted node,
        events ++ [.branched node branching s.direction]⟩

variable {search : Search α} {elapsed : Nat} {σ : State α} {node : Node α}

theorem course_of_ofPoint {answer : Answer α} {events : List (Event α)} {v : Visit α}
    (takes : Takes search elapsed σ node answer events)
    (h : ofPoint search (σ.counted node) node answer.point events = .ok v) :
    Course search elapsed σ node v := by
  obtain ⟨found, hbranching, h⟩ := bind_eq_ok.mp h
  cases found with
  | none =>
    rw [← Except.ok.inj h]
    exact .whole takes hbranching
  | some branching =>
    dsimp only at h
    split at h
    · rename_i hdominated
      rw [← Except.ok.inj h]
      exact .dominated takes hbranching (by simpa using hdominated)
    · rename_i himproves
      obtain ⟨s, hsplit, h⟩ := bind_eq_ok.mp h
      rw [← Except.ok.inj h]
      exact .split takes hbranching (by simpa using himproves) hsplit

theorem course_of_ofAnswer {answer : Answer α} {events : List (Event α)} {v : Visit α}
    (asks : Asks search elapsed σ node answer events)
    (feasible : answer.verdict.isFeasible = true)
    (h : ofAnswer search (σ.asked node) node answer events = .ok v) :
    Course search elapsed σ node v := by
  cases hspend : (σ.asked node).budget.spend.isExhausted with
  | true =>
    rw [ofAnswer_of_exhausted hspend] at h
    rw [← Except.ok.inj h]
    exact .overCeiling asks feasible hspend
  | false =>
    rw [ofAnswer_of_not_exhausted hspend] at h
    split at h
    · rename_i hunusable
      rw [← Except.ok.inj h]
      exact .unusable asks feasible hspend (by simpa using hunusable)
    · rename_i husable
      exact course_of_ofPoint ⟨asks, feasible, hspend, by simpa using husable⟩ h

theorem course_of_solve {v : Visit α} (allowed : σ.budget.allows elapsed = true)
    (isNew : (σ.visited.mark node).1 = true)
    (promising : search.criteria.mayImprove node.estimate σ.board.bestValue = true)
    (h : Visit.solve search elapsed (σ.marked node) node = .ok v) :
    Course search elapsed σ node v := by
  obtain ⟨answer, hanswer, h⟩ := bind_eq_ok.mp h
  obtain ⟨report, hreport, h⟩ := bind_eq_ok.mp h
  have asks : Asks search elapsed σ node answer _ :=
    ⟨allowed, isNew, promising, hanswer, report, hreport, rfl⟩
  dsimp only at h
  split at h
  · rename_i hfeasible
    exact course_of_ofAnswer asks hfeasible h
  · rename_i hfeasible
    rw [← Except.ok.inj h]
    exact .noPoint asks (by simpa using hfeasible)

theorem course_of_visit {v : Visit α} (h : visit search elapsed σ node = .ok v) :
    Course search elapsed σ node v := by
  unfold visit at h
  split at h
  · rename_i hallows
    rw [← Except.ok.inj h]
    exact .outOfBudget (by simpa using hallows)
  · rename_i hallows
    have allowed : σ.budget.allows elapsed = true := by simpa using hallows
    dsimp only at h
    split at h
    · rename_i hseen
      rw [← Except.ok.inj h]
      exact .seenBefore allowed (by simpa using hseen)
    · rename_i hnew
      have isNew : (σ.visited.mark node).1 = true := by simpa using hnew
      split at h
      · rename_i hpruned
        rw [← Except.ok.inj h]
        exact .unpromising allowed isNew (by simpa using hpruned)
      · rename_i hpromising
        exact course_of_solve allowed isNew (by simpa using hpromising) h

/-! ## Every course is a visit -/

theorem visit_eq_solve (allowed : σ.budget.allows elapsed = true)
    (isNew : (σ.visited.mark node).1 = true)
    (promising : search.criteria.mayImprove node.estimate σ.board.bestValue = true) :
    visit search elapsed σ node = Visit.solve search elapsed (σ.marked node) node := by
  unfold visit
  simp only [allowed, isNew, promising, Bool.not_true, Bool.false_eq_true, if_false]
  rfl

theorem solve_eq_of_asks {answer : Answer α} {events : List (Event α)}
    (asks : Asks search elapsed σ node answer events) :
    visit search elapsed σ node =
      if answer.verdict.isFeasible then ofAnswer search (σ.asked node) node answer events
      else .ok (close (σ.asked node) events node .infeasibleOrFailed) := by
  obtain ⟨report, hreport, rfl⟩ := asks.reported
  rw [visit_eq_solve asks.allowed asks.isNew asks.promising]
  unfold Visit.solve
  have hanswer : search.relaxation (σ.marked node).board.solved node
      (search.criteria.cutoff? (σ.marked node).board.bestValue) = .ok answer := asks.answered
  have hprogress : progress search elapsed
      { σ.marked node with board := (σ.marked node).board.countSolved } = .ok report := hreport
  simp only [hanswer, hprogress, bind, Except.bind, pure, Except.pure]
  rfl

theorem visit_eq_of_takes {answer : Answer α} {events : List (Event α)}
    (takes : Takes search elapsed σ node answer events) :
    visit search elapsed σ node = ofPoint search (σ.counted node) node answer.point events := by
  have hspend : (σ.asked node).budget.spend.isExhausted = false := takes.affordable
  rw [solve_eq_of_asks takes.toAsks, if_pos takes.feasible, ofAnswer_of_not_exhausted hspend]
  simp only [takes.usable, Bool.not_true, Bool.false_eq_true, if_false]
  rfl

/-- A visit succeeds exactly along the courses. -/
theorem visit_eq_ok_iff {v : Visit α} :
    visit search elapsed σ node = .ok v ↔ Course search elapsed σ node v := by
  refine ⟨course_of_visit, fun h => ?_⟩
  cases h with
  | outOfBudget h => simp [visit, h]
  | seenBefore allowed h => simp [visit, allowed, h, State.marked]
  | unpromising allowed isNew h => simp [visit, allowed, isNew, h, State.marked]
  | noPoint asks h => simp [solve_eq_of_asks asks, h]
  | overCeiling asks feasible h =>
    have hspend : (σ.asked node).budget.spend.isExhausted = true := h
    rw [solve_eq_of_asks asks, if_pos feasible, ofAnswer_of_exhausted hspend]
    rfl
  | unusable asks feasible affordable h =>
    have hspend : (σ.asked node).budget.spend.isExhausted = false := affordable
    rw [solve_eq_of_asks asks, if_pos feasible, ofAnswer_of_not_exhausted hspend]
    simp only [h, Bool.not_false, if_true]
    rfl
  | whole takes h =>
    rw [visit_eq_of_takes takes]
    simp only [ofPoint, h, bind, Except.bind, pure, Except.pure]
    rfl
  | dominated takes hbranching h =>
    rw [visit_eq_of_takes takes]
    -- counting the node leaves the incumbent alone
    have hbest : search.criteria.mayImprove (search.problem.objective _)
      (σ.counted node).board.bestValue = false := h
    simp only [ofPoint, hbranching, hbest, bind, Except.bind, pure, Except.pure, Bool.not_false,
      if_true]
  | split takes hbranching improves hsplit =>
    rw [visit_eq_of_takes takes]
    have hbest : search.criteria.mayImprove (search.problem.objective _)
      (σ.counted node).board.bestValue = true := improves
    simp only [ofPoint, hbranching, hbest, hsplit, bind, Except.bind, pure, Except.pure,
      Bool.not_true, Bool.false_eq_true, if_false]

end Visit

end BranchBound
