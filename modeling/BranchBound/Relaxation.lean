import BranchBound.Cutoff
import BranchBound.Node

/-!
# Relaxations

A relaxation answers for a node: it drops the demand that variables be whole, keeps the node's box,
and reports a point or that there is none. The search takes any such function. It may depend on how
many times it was called, so a relaxation that remembers earlier calls is one too.
-/

namespace BranchBound

/-- What a relaxation says about a node. -/
inductive Verdict where
  /-- A best point. -/
  | optimal
  /-- Some point, not shown to be best. -/
  | feasible
  /-- There is no point, or none within the cutoff. -/
  | infeasible
  /-- The objective is unbounded, or the computation broke down. -/
  | failed
  /-- Not solved. -/
  | unexplored
  deriving DecidableEq

/-- Whether a point comes with the verdict. -/
def Verdict.isFeasible : Verdict → Bool
  | optimal => true
  | feasible => true
  | _ => false

structure Answer (α : Type) where
  verdict : Verdict
  objective : α
  point : Array α

namespace Answer

variable {α : Type} [Scalar α]

def optimal (point : Array α) (objective : α) : Answer α := ⟨.optimal, objective, point⟩

def infeasible : Answer α := ⟨.infeasible, Scalar.nan, #[]⟩

def failed : Answer α := ⟨.failed, Scalar.nan, #[]⟩

/-- The answer with a given verdict. An infeasible or failed one carries no point. -/
def ofVerdict (verdict : Verdict) (point : Array α) (objective : α) : Answer α :=
  match verdict with
  | .infeasible => infeasible
  | .failed => failed
  | v => ⟨v, objective, point⟩

end Answer

/-- Answers for the number of the call, a node and a cutoff. -/
abbrev Relaxation (α : Type) :=
  Nat → Node α → Option (Cutoff α) → Except (Error α) (Answer α)

end BranchBound
