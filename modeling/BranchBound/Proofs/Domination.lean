import BranchBound.Proofs.Hints

/-!
# Dominated nodes

What an incumbent is worth without a gap. A node is *dominated* by a value if the relaxation has no
point for it that beats the value (`Search.Dominated`). A node whose point a search with the
incumbent `bound` does not get is dominated by `bound` (`dominated_of_not_gets`), and if the points
of children do not beat those of their parents, so is all that comes of it (`Dominated.trans`).

A run from a warm start is to have the better of the start and what the cold run has found
(`Sense.lead`). A visit of a node that this dominates does not change it (`lead_of_visit`).
-/

namespace BranchBound

open Scalar

variable {search : Search Exact} {R : Node Exact → Answer Exact}

/-! ## Without a gap -/

/-- Whether an incumbent has to be beaten by nothing more than itself. -/
structure Search.Gapless (search : Search Exact) : Prop where
  relative : search.settings.relativeGap = .ofRat 0
  absolute : search.settings.absoluteGap = .ofRat 0

namespace Search

variable {best : Option Exact} {bound : Exact} {node kid : Node Exact}

theorem Gapless.threshold_eq (h : search.Gapless) (value : Exact) :
    search.criteria.threshold value = value :=
  Criteria.threshold_of_noGap h.relative h.absolute value

theorem Gapless.mayImprove_eq_false_iff (h : search.Gapless) {value : Exact} :
    search.criteria.mayImprove value (some bound) = false ↔
      search.problem.sense.noWorse bound value := by
  rw [Criteria.mayImprove_eq_false_iff, h.threshold_eq]
  exact Iff.rfl

/-- What may improve on a better incumbent may improve on a worse one. -/
theorem Gapless.mayImprove_mono (h : search.Gapless)
    (hle : ∀ value, best = some value → search.problem.sense.noWorse bound value) {value : Exact}
    (himproves : search.criteria.mayImprove value (some bound) = true) :
    search.criteria.mayImprove value best = true := by
  cases best with
  | none => rfl
  | some worse =>
    cases hm : search.criteria.mayImprove value (some worse) with
    | true => rfl
    | false =>
      have hbound : search.criteria.mayImprove value (some bound) = false :=
        h.mayImprove_eq_false_iff.mpr
          (Sense.noWorse_trans (hle worse rfl) (h.mayImprove_eq_false_iff.mp hm))
      rw [himproves] at hbound
      cases hbound

/-- A search that gets a point with a better incumbent gets it with a worse one. -/
theorem Gets.mono (h : search.Gapless)
    (hle : ∀ value, best = some value → search.problem.sense.noWorse bound value)
    (hgets : search.Gets R (some bound) node) : search.Gets R best node where
  promising := h.mayImprove_mono hle hgets.promising
  feasible := hgets.feasible
  within value hvalue := by
    have hwithin := hgets.within bound rfl
    rw [h.threshold_eq] at hwithin ⊢
    cases hb : search.problem.sense.better value (search.value R node) with
    | false => rfl
    | true =>
      rw [Sense.better_of_noWorse_of_better (hle value hvalue) hb] at hwithin
      cases hwithin

/-! ## Dominated nodes -/

/-- Whether the point of a node, if it has one, does not beat a bound. -/
def Dominated (search : Search Exact) (R : Node Exact → Answer Exact) (bound : Exact)
    (node : Node Exact) : Prop :=
  (R node).verdict.isFeasible = true →
    search.problem.sense.better (search.value R node) bound = false

/-- Whether no child has a better point than its parent. -/
def Monotone (search : Search Exact) (R : Node Exact → Answer Exact) : Prop :=
  ∀ ⦃node kid : Node Exact⦄ ⦃branching : Branching Exact⦄ ⦃s : Split Exact⦄,
    node.IsOver search.problem → (R node).verdict.isFeasible = true →
    search.criteria.branching? (R node).point node = .ok (some branching) →
    node.split branching (search.value R node) = .ok s → kid = s.continued ∨ kid = s.forked →
    search.Dominated R (search.value R node) kid

/-- A node whose point the search does not get is dominated by the incumbent, if its estimate holds
what it promises. -/
theorem dominated_of_not_gets (h : search.Gapless)
    (hestimate : search.Dominated R node.estimate node)
    (hgets : ¬search.Gets R (some bound) node) : search.Dominated R bound node := by
  intro hfeasible
  cases hb : search.problem.sense.better (search.value R node) bound with
  | false => rfl
  | true =>
    refine absurd ⟨?_, hfeasible, fun value hvalue => ?_⟩ hgets
    · cases hm : search.criteria.mayImprove node.estimate (some bound) with
      | true => rfl
      | false =>
        have hbetter := Sense.better_of_better_of_noWorse hb (h.mayImprove_eq_false_iff.mp hm)
        rw [hestimate hfeasible] at hbetter
        cases hbetter
    · rw [← Option.some.inj hvalue, h.threshold_eq]
      exact Sense.not_better_of_noWorse (Sense.noWorse_of_better hb)

/-- What is dominated by a dominated point is dominated. -/
theorem Dominated.trans (hkid : search.Dominated R (search.value R node) kid)
    (hvalue : search.value R node ≠ .nan) (hbound : bound ≠ .nan)
    (hnode : search.problem.sense.better (search.value R node) bound = false) :
    search.Dominated R bound kid := by
  intro hfeasible
  cases hb : search.problem.sense.better (search.value R kid) bound with
  | false => rfl
  | true =>
    have hbetter := Sense.better_of_better_of_noWorse hb
      (Sense.noWorse_of_not_better hbound hvalue hnode)
    rw [hkid hfeasible] at hbetter
    cases hbetter

end Search

/-! ## The better of a start and an incumbent -/

namespace Sense

variable {sense : Sense} {start value : Exact} {best : Option Exact}

/-- The better of a value and that of an incumbent, if there is one. -/
def lead (sense : Sense) (start : Exact) : Option Exact → Exact
  | none => start
  | some value => if sense.better value start then value else start

@[simp] theorem lead_none : sense.lead start none = start := rfl

@[simp] theorem lead_some : sense.lead start (some value) =
    if sense.better value start then value else start := rfl

theorem lead_noWorse (hstart : start ≠ .nan) (hvalue : value ≠ .nan) :
    sense.noWorse (sense.lead start (some value)) value := by
  rw [lead_some]
  split
  · exact noWorse_refl hvalue
  · rename_i hnot
    exact noWorse_of_not_better hstart hvalue (Bool.not_eq_true _ ▸ hnot)

theorem lead_valid (hstart : start ≠ .nan) (hbest : best ≠ some .nan) :
    sense.lead start best ≠ .nan := by
  cases best with
  | none => exact hstart
  | some value =>
    rw [lead_some]
    split
    · exact fun hvalue => hbest (congrArg some hvalue)
    · exact hstart

end Sense

namespace Scoreboard

variable (board : Scoreboard Exact) {x : Array Exact} {start value bound : Exact}

theorem bestValue_offer : (board.offer x value).2.bestValue =
    if (board.offer x value).1 then some value else board.bestValue := by
  unfold bestValue
  rw [best_offer]
  split
  · rfl
  · rfl

section

variable {sense : Sense} (hsense : board.sense = sense)

include hsense

/-- An offer that does not beat the incumbent changes nothing. -/
theorem bestValue_offer_of_not_better (hbest : board.bestValue = some bound)
    (h : sense.better value bound = false) :
    (board.offer x value).2.bestValue = some bound := by
  rw [bestValue_offer]
  cases ho : (board.offer x value).1 with
  | false => exact hbest
  | true =>
    have hbetter := ((offer_fst_eq_true_iff board).mp ho).2 bound hbest
    rw [hsense, h] at hbetter
    cases hbetter

/-- An offer that beats the incumbent, if there is one, takes its place. -/
theorem bestValue_offer_of_better (hvalid : value ≠ .nan)
    (h : ∀ old, board.bestValue = some old → sense.better value old = true) :
    (board.offer x value).2.bestValue = some value := by
  rw [← hsense] at h
  rw [bestValue_offer, (offer_fst_eq_true_iff board).mpr ⟨hvalid, h⟩]
  rfl

/-- An offer that does not beat the better of a start and the incumbent does not change it. -/
theorem lead_offer_of_not_better
    (h : sense.better value (sense.lead start board.bestValue) = false) :
    sense.lead start (board.offer x value).2.bestValue = sense.lead start board.bestValue := by
  rw [bestValue_offer]
  cases ho : (board.offer x value).1 with
  | false => rfl
  | true =>
    have hbetter := ((offer_fst_eq_true_iff board).mp ho).2
    rw [hsense] at hbetter
    rw [if_pos rfl, Sense.lead_some]
    cases hbest : board.bestValue with
    | none =>
      rw [hbest, Sense.lead_none] at h
      rw [h]
      rfl
    | some old =>
      rw [hbest, Sense.lead_some] at h
      rw [Sense.lead_some]
      split at h
      · rw [hbetter old hbest] at h
        cases h
      · rename_i hnot
        rw [h, if_neg hnot]
        rfl

/-- An offer that beats the better of a start and the incumbent is the better one from then on. -/
theorem lead_offer_of_better (hstart : start ≠ .nan) (hbest : board.bestValue ≠ some .nan)
    (h : sense.better value (sense.lead start board.bestValue) = true) :
    sense.lead start (board.offer x value).2.bestValue = value := by
  have hvalid : value ≠ .nan := (Sense.valid_of_noWorse (Sense.noWorse_of_better h)).1
  have hbetter : sense.better value start = true := by
    cases hb : board.bestValue with
    | none =>
      rw [hb] at h
      exact h
    | some old =>
      rw [hb, Sense.lead_some] at h
      split at h
      · rename_i hold
        exact Sense.better_of_better_of_noWorse h (Sense.noWorse_of_better hold)
      · exact h
  rw [bestValue_offer_of_better board hsense hvalid fun old hold => ?_, Sense.lead_some,
    if_pos hbetter]
  rw [hold] at h hbest
  exact Sense.better_of_better_of_noWorse h
    (Sense.lead_noWorse hstart fun hnan => hbest (congrArg some hnan))

end

end Scoreboard

/-! ## Visits of dominated nodes -/

section

variable {σ : State Exact} {node kid : Node Exact} {elapsed : Nat} {v : Visit Exact}
  {start : Exact}

/-- The children of a visited node promise the value of its point, and have none that beats it. -/
theorem dominated_of_visit (hR : search.relaxation = .hinted search.problem R)
    (hmono : search.Monotone R) (hover : node.IsOver search.problem)
    (h : visit search elapsed σ node = .ok v) (hkid : kid ∈ v.outcome.children) :
    kid.estimate = search.value R node ∧ search.Dominated R (search.value R node) kid ∧
      (R node).verdict.isFeasible = true ∧ Visit.isUsable search (R node).point = true := by
  obtain ⟨answer, events, branching, s, takes, hbranching, hsplit, -, hside⟩ :=
    children_of_visit h hkid
  obtain ⟨hgets, rfl⟩ := gets_of_asks hR takes.toAsks takes.feasible
  exact ⟨(Node.of_split hsplit hside).2.2.1,
    hmono hover takes.feasible hbranching hsplit hside, takes.feasible, takes.usable⟩

/-- A visit of a dominated node does not change the better of a start and the incumbent. -/
theorem lead_of_visit (hR : search.relaxation = .hinted search.problem R)
    (hnew : (σ.visited.mark node).1 = true) (hsense : σ.board.sense = search.problem.sense)
    (hdominated : search.Dominated R
      (search.problem.sense.lead start σ.board.bestValue) node)
    (hexhaustive : v.outcome.isExhaustive = true) (h : visit search elapsed σ node = .ok v) :
    search.problem.sense.lead start v.state.board.bestValue =
      search.problem.sense.lead start σ.board.bestValue := by
  rcases course_of_hinted hR hnew hexhaustive h with ⟨hgets, -, -, -, huses⟩ | ⟨-, -, -, hbest⟩
  · cases huses with
    | offer _ _ hbest =>
      unfold Scoreboard.bestValue
      rw [hbest]
      exact Scoreboard.lead_offer_of_not_better σ.board.countSolved hsense
        (hdominated hgets.feasible)
    | drop _ _ _ hbest | split _ _ _ _ hbest =>
      unfold Scoreboard.bestValue
      rw [hbest]
  · unfold Scoreboard.bestValue
    rw [hbest]

end

end BranchBound
