import BranchBound.Criteria
import BranchBound.Relaxation

/-!
# What happens in a search

How a node ends, how a search ends, and the events on the way. The events of a search are its
journal: every call of the relaxation and the end of every node that was come to are in it, so
counts and orders of nodes are read off the journal. Which events are shown, and how, is in
`BranchBound.Log`.
-/

namespace BranchBound

/-- How a node ended. -/
inductive Fate where
  /-- The budget was used up before the node was solved. -/
  | budgetExceeded
  /-- Its box was seen before. -/
  | duplicate
  /-- It cannot beat the incumbent by the gap. -/
  | pruned
  /-- The relaxation has no point. -/
  | infeasibleOrFailed
  /-- The point of the relaxation is none of the problem. -/
  | invalid
  /-- The point of the relaxation is whole. -/
  | integerFound
  /-- It has children. -/
  | branched
  deriving DecidableEq

namespace Fate

/-- Whether nothing below the node was left out, its children apart. -/
def isExhaustive : Fate → Bool
  | budgetExceeded => false
  | invalid => false
  | _ => true

def name : Fate → String
  | budgetExceeded => "BudgetExceeded"
  | duplicate => "Duplicate"
  | pruned => "Pruned"
  | infeasibleOrFailed => "InfeasibleOrFailed"
  | invalid => "Invalid"
  | integerFound => "IntegerFound"
  | branched => "Branched"

end Fate

/-- How a search ended. -/
inductive Status where
  /-- It went through the whole tree, and nothing beats the incumbent by the gap. -/
  | optimal
  /-- It stopped early and has an incumbent. -/
  | feasible
  /-- It went through the whole tree and found no whole point. -/
  | infeasible
  /-- It stopped early without an incumbent. -/
  | failed
  deriving DecidableEq

namespace Status

/-- The status of a search, by whether it has an incumbent and went through the whole tree. -/
def ofOutcome : (found complete : Bool) → Status
  | true, true => optimal
  | true, false => feasible
  | false, true => infeasible
  | false, false => failed

def hasSolution : Status → Bool
  | optimal => true
  | feasible => true
  | _ => false

def isOptimal : Status → Bool
  | optimal => true
  | _ => false

def name : Status → String
  | optimal => "Optimal"
  | feasible => "Feasible"
  | infeasible => "Infeasible"
  | failed => "Failed"

theorem hasSolution_ofOutcome (found complete : Bool) :
    (ofOutcome found complete).hasSolution = found := by
  cases found <;> cases complete <;> rfl

end Status

inductive Event (α : Type) where
  | warmStartIgnored
  | warmStartAccepted (objective : α)
  | started (size integers threads : Nat)
  /-- The relaxation was asked about a node and gave an answer. -/
  | called (node : Node α) (cutoff : Option (Cutoff α)) (answer : Answer α)
  | progress (solved iterations : Nat) (incumbent : Option α) (offers elapsed : Nat)
  /-- The relaxation gave a point that is none of the problem. -/
  | invalidPoint (verdict : Verdict) (node : Node α)
  | improved (objective : α) (depth : Nat)
  /-- A node ended without children. -/
  | closed (node : Node α) (fate : Fate)
  /-- A node ended with children; the first of them is on the given side. -/
  | branched (node : Node α) (branching : Branching α) (direction : Direction)
  /-- A node ended because the count of iterations passed the ceiling. -/
  | ceilingPassed (node : Node α) (count ceiling : Nat)
  /-- The search ended because of that. -/
  | aborted (count ceiling : Nat)
  | finished (status : Status) (objective : α) (solved offers elapsed : Nat)

/-- A call of the relaxation. -/
structure Call (α : Type) where
  node : Node α
  cutoff : Option (Cutoff α)
  answer : Answer α

/-- The call that an event records. -/
def Event.call? {α : Type} : Event α → Option (Call α)
  | called node cutoff answer => some ⟨node, cutoff, answer⟩
  | _ => none

/-- The node that an event ends. -/
def Event.ended? {α : Type} : Event α → Option (Node α)
  | closed node _ => some node
  | branched node _ _ => some node
  | ceilingPassed node _ _ => some node
  | _ => none

/-- How the node of an event ended, unless it passed the ceiling. -/
def Event.fate? {α : Type} : Event α → Option Fate
  | closed _ fate => some fate
  | branched .. => some .branched
  | _ => none

/-- The calls of a journal, in order. -/
def callsOf {α : Type} (journal : Array (Event α)) : List (Call α) :=
  journal.toList.filterMap Event.call?

/-- The nodes that a search came to, in order. -/
def nodesOf {α : Type} (journal : Array (Event α)) : List (Node α) :=
  journal.toList.filterMap Event.ended?

/-- How the nodes ended, in order; the one that passed the ceiling is not among them. -/
def fatesOf {α : Type} (journal : Array (Event α)) : List Fate :=
  journal.toList.filterMap Event.fate?

end BranchBound
