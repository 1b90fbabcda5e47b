import BranchBound.Budget
import BranchBound.Scoreboard
import BranchBound.Search.Event
import BranchBound.Visited

/-!
# Visiting a node

A visit takes one node to its end: it is closed, or it has children, or it was the one at which the
count of iterations passed its ceiling. A visit asks the relaxation once at most, and only if the
budget allows it, the box is new, and the node's estimate may still beat the incumbent.

`spends_of_visit` says that a visit spends one iteration at most, and one if there are children, and
`allows_of_branched` that a node with children was within the budget. The search ends because of
these two.
-/

namespace BranchBound

/-- What a search works on. -/
structure Search (α : Type) where
  problem : Problem α
  relaxation : Relaxation α
  settings : Settings α

def Search.criteria {α : Type} (search : Search α) : Criteria α :=
  .ofSettings search.problem.sense search.settings

/-- What the visits of a search share. -/
structure State (α : Type) where
  board : Scoreboard α
  budget : Budget
  visited : Visited

/-- What came of a visit. -/
inductive Outcome (α : Type) where
  | closed (fate : Fate)
  | branched (continued forked : Node α)
  | ceilingPassed (count ceiling : Nat)

structure Visit (α : Type) where
  outcome : Outcome α
  /-- The shared state after the visit. -/
  state : State α
  events : List (Event α)

section

variable {α : Type} [Scalar α]

/-- The state before the first visit. -/
def State.initial (search : Search α) : State α where
  board := { sense := search.problem.sense }
  budget := .ofSettings search.settings
  visited := { enabled := search.settings.dedup }

namespace Visit

/-- A visit that ends without children. -/
def close (σ : State α) (events : List (Event α)) (node : Node α) (fate : Fate) : Visit α :=
  ⟨.closed fate, σ, events ++ [.closed node fate]⟩

/-- The report on the progress, when one is due. -/
def progress (search : Search α) (elapsed : Nat) (σ : State α) :
    Except (Error α) (List (Event α)) :=
  if !search.settings.verbose then .ok []
  else if search.settings.logFrequency = 0 then .error .divisionByZero
  else if σ.board.solved % search.settings.logFrequency = 0 then
    .ok [.progress σ.board.solved σ.budget.iterations σ.board.bestValue σ.board.offers elapsed]
  else .ok []

/-- Whether a point is one of the problem, as far as the settings ask. -/
def isUsable (search : Search α) (x : Array α) : Bool :=
  x.size == search.problem.size && x.all Scalar.isFinite &&
    (!search.settings.validate || search.problem.accepts x)

/-- Offers a point if it is whole, and else branches on it if its value may beat the incumbent. -/
def ofPoint (search : Search α) (σ : State α) (node : Node α) (x : Array α)
    (events : List (Event α)) : Except (Error α) (Visit α) := do
  let objective := search.problem.objective x
  match ← search.criteria.branching? x node with
  | none =>
    let (improved, board) := σ.board.offer x objective
    let report := if improved then [.improved objective node.depth] else []
    return close { σ with board } (events ++ report) node .integerFound
  | some branching =>
    if !search.criteria.mayImprove objective σ.board.bestValue then
      return close σ events node .pruned
    let split ← node.split branching objective
    return ⟨.branched split.continued split.forked, σ,
      events ++ [.branched node branching split.direction]⟩

/-- Counts an answer that has a point, and goes on with the point if it is usable. A count that
passed the ceiling ends the visit. -/
def ofAnswer (search : Search α) (σ : State α) (node : Node α) (answer : Answer α)
    (events : List (Event α)) : Except (Error α) (Visit α) :=
  let σ := { σ with budget := σ.budget.spend }
  match σ.budget.count with
  | .ok _ =>
    if !isUsable search answer.point then
      .ok (close σ (events ++ [.invalidPoint answer.verdict node]) node .invalid)
    else ofPoint search σ node answer.point events
  | .error (.ceilingPassed count ceiling) =>
    .ok ⟨.ceilingPassed count ceiling, σ, events ++ [.ceilingPassed node count ceiling]⟩
  | .error e => .error e

section

variable {search : Search α} {σ : State α} {node : Node α} {answer : Answer α}
  {events : List (Event α)}

theorem ofAnswer_of_exhausted (h : σ.budget.spend.isExhausted = true) :
    ofAnswer search σ node answer events =
      .ok ⟨.ceilingPassed σ.budget.spend.iterations σ.budget.ceiling,
        { σ with budget := σ.budget.spend },
        events ++ [.ceilingPassed node σ.budget.spend.iterations σ.budget.ceiling]⟩ := by
  unfold ofAnswer
  dsimp only
  rw [Budget.count_eq_error h]
  rfl

theorem ofAnswer_of_not_exhausted (h : σ.budget.spend.isExhausted = false) :
    ofAnswer search σ node answer events =
      if !isUsable search answer.point then
        .ok (close { σ with budget := σ.budget.spend }
          (events ++ [.invalidPoint answer.verdict node]) node .invalid)
      else ofPoint search { σ with budget := σ.budget.spend } node answer.point events := by
  unfold ofAnswer
  dsimp only
  rw [Budget.count_eq_ok h]

end

/-- Asks the relaxation about a node. -/
def solve (search : Search α) (elapsed : Nat) (σ : State α) (node : Node α) :
    Except (Error α) (Visit α) := do
  let cutoff := search.criteria.cutoff? σ.board.bestValue
  let answer ← search.relaxation σ.board.solved node cutoff
  let σ := { σ with board := σ.board.countSolved }
  let events := .called node cutoff answer :: (← progress search elapsed σ)
  if answer.verdict.isFeasible then ofAnswer search σ node answer events
  else return close σ events node .infeasibleOrFailed

end Visit

/-- Visits a node, after so many milliseconds of the search. -/
def visit (search : Search α) (elapsed : Nat) (σ : State α) (node : Node α) :
    Except (Error α) (Visit α) :=
  if !σ.budget.allows elapsed then .ok (.close σ [] node .budgetExceeded)
  else
    let (isNew, visited) := σ.visited.mark node
    let σ := { σ with visited }
    if !isNew then .ok (.close σ [] node .duplicate)
    else if !search.criteria.mayImprove node.estimate σ.board.bestValue then
      .ok (.close σ [] node .pruned)
    else Visit.solve search elapsed σ node

/-! ## The budget of a visit -/

/-- A visit from a budget leaves it as it is, without children, or spends one iteration of it. -/
def Visit.Spends (v : Visit α) (budget : Budget) : Prop :=
  (v.state.budget = budget ∧ ∀ a b, v.outcome ≠ .branched a b) ∨ v.state.budget = budget.spend

omit [Scalar α] in
theorem Visit.spends_close (σ : State α) (events : List (Event α)) (node : Node α) (fate : Fate) :
    (Visit.close σ events node fate).Spends σ.budget :=
  Or.inl ⟨rfl, fun _ _ h => nomatch h⟩

theorem Visit.budget_of_ofPoint {search : Search α} {σ : State α} {node : Node α} {x : Array α}
    {events : List (Event α)} {v : Visit α} (h : Visit.ofPoint search σ node x events = .ok v) :
    v.state.budget = σ.budget := by
  obtain ⟨found, -, h⟩ := bind_eq_ok.mp h
  cases found with
  | none =>
    rw [← Except.ok.inj h]
    rfl
  | some branching =>
    dsimp only at h
    split at h
    · rw [← Except.ok.inj h]
      rfl
    · obtain ⟨s, -, h⟩ := bind_eq_ok.mp h
      rw [← Except.ok.inj h]

theorem Visit.budget_of_ofAnswer {search : Search α} {σ : State α} {node : Node α}
    {answer : Answer α} {events : List (Event α)} {v : Visit α}
    (h : Visit.ofAnswer search σ node answer events = .ok v) :
    v.state.budget = σ.budget.spend := by
  cases hexhausted : σ.budget.spend.isExhausted with
  | true =>
    rw [Visit.ofAnswer_of_exhausted hexhausted] at h
    rw [← Except.ok.inj h]
  | false =>
    rw [Visit.ofAnswer_of_not_exhausted hexhausted] at h
    split at h
    · rw [← Except.ok.inj h]
      rfl
    · exact Visit.budget_of_ofPoint h

theorem Visit.spends_of_solve {search : Search α} {elapsed : Nat} {σ : State α} {node : Node α}
    {v : Visit α} (h : Visit.solve search elapsed σ node = .ok v) : v.Spends σ.budget := by
  obtain ⟨answer, -, h⟩ := bind_eq_ok.mp h
  obtain ⟨report, -, h⟩ := bind_eq_ok.mp h
  dsimp only at h
  split at h
  · have hb := Visit.budget_of_ofAnswer h
    exact Or.inr hb
  · rw [← Except.ok.inj h]
    exact Visit.spends_close _ _ node _

/-- A visit spends one iteration at most, and one without spending has no children. -/
theorem spends_of_visit {search : Search α} {elapsed : Nat} {σ : State α} {node : Node α}
    {v : Visit α} (h : visit search elapsed σ node = .ok v) : v.Spends σ.budget := by
  unfold visit at h
  split at h
  · rw [← Except.ok.inj h]
    exact Visit.spends_close σ [] node _
  · dsimp only at h
    split at h
    · rw [← Except.ok.inj h]
      exact Visit.spends_close _ [] node _
    · split at h
      · rw [← Except.ok.inj h]
        exact Visit.spends_close _ [] node _
      · have hs := Visit.spends_of_solve h
        exact hs

/-- A node with children was within the budget. -/
theorem allows_of_branched {search : Search α} {elapsed : Nat} {σ : State α} {node a b : Node α}
    {v : Visit α} (h : visit search elapsed σ node = .ok v) (hv : v.outcome = .branched a b) :
    σ.budget.allows elapsed = true := by
  unfold visit at h
  split at h
  · rw [← Except.ok.inj h] at hv
    cases hv
  · rename_i hallows
    simpa using hallows

end

end BranchBound
