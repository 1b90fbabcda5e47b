import BranchBound.Proofs.Simulation

/-!
# Relaxations that use the cutoff as a hint

A relaxation that has one answer for every node, and keeps it to itself exactly if the cutoff
excludes its objective value (`Relaxation.hinted`). What a visit does is then said by the
incumbent's value and the answer alone (`course_of_hinted`): the search *gets* the point of a node
if the estimate may improve on the incumbent and the answer is within the cutoff (`Search.Gets`).
-/

namespace BranchBound

/-- Gives one answer for each node, unless the cutoff excludes the objective value of its point. -/
def Relaxation.hinted (problem : Problem Exact) (R : Node Exact → Answer Exact) :
    Relaxation Exact := fun _ node cutoff =>
  .ok (if (R node).verdict.isFeasible &&
      cutoff.any (·.excludes (problem.objective (R node).point)) then .infeasible else R node)

/-! ## Visits with hints -/

variable {search : Search Exact} {R : Node Exact → Answer Exact} {elapsed : Nat} {σ : State Exact}
  {node : Node Exact} {v : Visit Exact}

/-- The objective value of the answer for a node. -/
def Search.value (search : Search Exact) (R : Node Exact → Answer Exact) (node : Node Exact) :
    Exact := search.problem.objective (R node).point

/-- Whether a search gets the point of a node: the estimate may improve on the incumbent, there is a
point, and the threshold does not beat its value. -/
structure Search.Gets (search : Search Exact) (R : Node Exact → Answer Exact) (best : Option Exact)
    (node : Node Exact) : Prop where
  promising : search.criteria.mayImprove node.estimate best = true
  feasible : (R node).verdict.isFeasible = true
  within : ∀ value, best = some value →
    search.problem.sense.better (search.criteria.threshold value) (search.value R node) = false

/-- The answer is given exactly if no threshold beats its value. -/
theorem hinted_eq (hR : search.relaxation = .hinted search.problem R) (call : Nat)
    (best : Option Exact) (hfeasible : (R node).verdict.isFeasible = true) :
    search.relaxation call node (search.criteria.cutoff? best) =
      if best.any fun value => search.problem.sense.better (search.criteria.threshold value)
          (search.value R node) then .ok .infeasible else .ok (R node) := by
  rw [hR]
  unfold Relaxation.hinted
  rw [hfeasible, Bool.true_and]
  cases best with
  | none => rfl
  | some value =>
    have hcutoff : (search.criteria.cutoff? (some value)).any
        (·.excludes (search.problem.objective (R node).point)) =
        search.problem.sense.better (search.criteria.threshold value) (search.value R node) := by
      cases hlimit : search.criteria.cutoff? (some value) with
      | none => cases hlimit
      | some limit => exact Criteria.excludes_cutoff hlimit
    rw [hcutoff, Option.any_some]
    split
    · rfl
    · rfl

theorem hinted_ok (hR : search.relaxation = .hinted search.problem R) (call : Nat)
    (cutoff : Option (Cutoff Exact)) :
    ∃ answer, search.relaxation call node cutoff = .ok answer := by
  rw [hR]
  exact ⟨_, rfl⟩

/-- A feasible answer means that the search gets the point, and is the answer for the node. -/
theorem gets_of_asks {answer : Answer Exact} {events : List (Event Exact)}
    (hR : search.relaxation = .hinted search.problem R)
    (asks : Visit.Asks search elapsed σ node answer events)
    (hfeasible : answer.verdict.isFeasible = true) :
    search.Gets R σ.board.bestValue node ∧ answer = R node := by
  have hanswered := asks.answered
  cases hRf : (R node).verdict.isFeasible with
  | false =>
    -- an answer without a point is given as it is
    have hsame : search.relaxation σ.board.solved node
        (search.criteria.cutoff? σ.board.bestValue) = .ok (R node) := by
      rw [hR]
      unfold Relaxation.hinted
      rw [hRf]
      rfl
    rw [hsame] at hanswered
    rw [← Except.ok.inj hanswered, hRf] at hfeasible
    cases hfeasible
  | true =>
    rw [hinted_eq hR _ _ hRf] at hanswered
    split at hanswered
    · rw [← Except.ok.inj hanswered] at hfeasible
      cases hfeasible
    · rename_i hwithin
      refine ⟨⟨asks.promising, hRf, fun value hvalue => ?_⟩, (Except.ok.inj hanswered).symm⟩
      rw [hvalue, Option.any_some, Bool.not_eq_true] at hwithin
      exact hwithin

/-- If the search gets the point of a node, an answer to it is feasible. -/
theorem feasible_of_gets {answer : Answer Exact} {events : List (Event Exact)}
    (hR : search.relaxation = .hinted search.problem R)
    (asks : Visit.Asks search elapsed σ node answer events)
    (hgets : search.Gets R σ.board.bestValue node) : answer.verdict.isFeasible = true := by
  have hanswered := asks.answered
  rw [hinted_eq hR _ _ hgets.feasible] at hanswered
  have hany : (σ.board.bestValue.any fun value => search.problem.sense.better
      (search.criteria.threshold value) (search.value R node)) = false := by
    cases hbest : σ.board.bestValue with
    | none => rfl
    | some value => exact hgets.within value hbest
  rw [hany] at hanswered
  rw [← Except.ok.inj hanswered]
  exact hgets.feasible

/-- What a visit that gets the point of its node does with it. -/
inductive Search.Uses (search : Search Exact) (R : Node Exact → Answer Exact) (σ : State Exact)
    (node : Node Exact) (v : Visit Exact) : Prop
  | offer (hbranching : search.criteria.branching? (R node).point node = .ok none)
      (hchildren : v.outcome.children = [])
      (hbest : v.state.board.best =
        (σ.board.countSolved.offer (R node).point (search.value R node)).2.best)
  | drop {branching : Branching Exact}
      (hbranching : search.criteria.branching? (R node).point node = .ok (some branching))
      (himproves : search.criteria.mayImprove (search.value R node) σ.board.bestValue = false)
      (hchildren : v.outcome.children = []) (hbest : v.state.board.best = σ.board.best)
  | split {branching : Branching Exact} {s : Split Exact}
      (hbranching : search.criteria.branching? (R node).point node = .ok (some branching))
      (himproves : search.criteria.mayImprove (search.value R node) σ.board.bestValue = true)
      (hsplit : node.split branching (search.value R node) = .ok s)
      (hchildren : v.outcome.children = [s.continued, s.forked])
      (hbest : v.state.board.best = σ.board.best)

/-- What a visit does that leaves nothing out: it spends an iteration and uses the point if it gets
it, and otherwise it leaves everything as it was. -/
theorem course_of_hinted (hR : search.relaxation = .hinted search.problem R)
    (hnew : (σ.visited.mark node).1 = true) (hexhaustive : v.outcome.isExhaustive = true)
    (h : visit search elapsed σ node = .ok v) :
    (search.Gets R σ.board.bestValue node ∧ Visit.isUsable search (R node).point = true ∧
      σ.budget.spend.isExhausted = false ∧ v.state.budget = σ.budget.spend ∧
      search.Uses R σ node v) ∨
    (¬search.Gets R σ.board.bestValue node ∧ v.state.budget = σ.budget ∧
      v.outcome.children = [] ∧ v.state.board.best = σ.board.best) := by
  cases Visit.course_of_visit h with
  | outOfBudget => cases hexhaustive
  | overCeiling => cases hexhaustive
  | unusable => cases hexhaustive
  | seenBefore _ hseen =>
    rw [hnew] at hseen
    cases hseen
  | unpromising _ _ hnot =>
    refine Or.inr ⟨fun hgets => ?_, rfl, rfl, rfl⟩
    rw [hgets.promising] at hnot
    cases hnot
  | noPoint asks hnone =>
    refine Or.inr ⟨fun hgets => ?_, rfl, rfl, rfl⟩
    rw [feasible_of_gets hR asks hgets] at hnone
    cases hnone
  | whole takes hbranching =>
    obtain ⟨hgets, rfl⟩ := gets_of_asks hR takes.toAsks takes.feasible
    exact Or.inl ⟨hgets, takes.usable, takes.affordable, rfl, .offer hbranching rfl rfl⟩
  | dominated takes hbranching hnot =>
    obtain ⟨hgets, rfl⟩ := gets_of_asks hR takes.toAsks takes.feasible
    exact Or.inl ⟨hgets, takes.usable, takes.affordable, rfl, .drop hbranching hnot rfl rfl⟩
  | split takes hbranching himproves hsplit =>
    obtain ⟨hgets, rfl⟩ := gets_of_asks hR takes.toAsks takes.feasible
    exact Or.inl ⟨hgets, takes.usable, takes.affordable, rfl,
      .split hbranching himproves hsplit rfl rfl⟩

end BranchBound
