import BranchBound.Error
import BranchBound.Problem

/-!
# Linear programs with whole variables

The problem of minimising or maximising `c · x + c₀` over the points `x` that satisfy rows
`a · x ≤ b` and bounds `l ≤ x ≤ u`, with some variables whole.

A program starts out with continuous, unbounded variables and no rows; the functions below set one
thing at a time and refuse what makes no sense. `Step` names these functions as data, so that a
program can be built from a list of them (`build`).
-/

namespace BranchBound

/-- The condition `coefs · x ≤ rhs`. -/
structure Row (α : Type) where
  coefs : Array α
  rhs : α

namespace Row

variable {α : Type} [Scalar α]

def activity (row : Row α) (x : Array α) : α := Scalar.dot row.coefs x

/-- How far the activity is above the right-hand side. -/
def violation (row : Row α) (x : Array α) : α := row.activity x - row.rhs

end Row

structure Program (α : Type) where
  sense : Sense
  /-- One coefficient for each variable. -/
  costs : Array α
  constant : α
  lower : Array α
  upper : Array α
  /-- The variables that are to be whole, in ascending order. -/
  integers : Array Nat
  /-- Those of them that were marked as zero or one. -/
  binaries : Array Nat
  rows : Array (Row α)

/-- Puts a number into an ascending list, unless it is there. -/
def insertAscending (v : Nat) : List Nat → List Nat
  | [] => [v]
  | w :: rest =>
    if v < w then v :: w :: rest else if v = w then w :: rest else w :: insertAscending v rest

theorem mem_insertAscending {v w : Nat} {vs : List Nat} :
    w ∈ insertAscending v vs ↔ w = v ∨ w ∈ vs := by
  induction vs with
  | nil => simp [insertAscending]
  | cons u rest ih =>
    unfold insertAscending
    split
    · simp
    · split
      · simp_all
      · simp only [List.mem_cons, ih]
        exact or_left_comm

theorem pairwise_insertAscending (v : Nat) {vs : List Nat} (h : vs.Pairwise (· < ·)) :
    (insertAscending v vs).Pairwise (· < ·) := by
  induction vs with
  | nil => simp [insertAscending]
  | cons u rest ih =>
    have hrest := List.pairwise_cons.1 h
    unfold insertAscending
    split
    · rename_i hlt
      refine List.pairwise_cons.2 ⟨fun w hw => ?_, h⟩
      rcases List.mem_cons.1 hw with rfl | hw
      · exact hlt
      · exact Nat.lt_trans hlt (hrest.1 w hw)
    · split
      · exact h
      · refine List.pairwise_cons.2 ⟨fun w hw => ?_, ih hrest.2⟩
        rcases mem_insertAscending.1 hw with rfl | hw
        · omega
        · exact hrest.1 w hw

namespace Program

variable {α : Type} [Scalar α]

/-- Continuous, unbounded variables and no rows. -/
def ofCosts (sense : Sense) (costs : Array α) : Program α where
  sense := sense
  costs := costs
  constant := 0.0
  lower := Array.replicate costs.size (-Scalar.inf)
  upper := Array.replicate costs.size Scalar.inf
  integers := #[]
  binaries := #[]
  rows := #[]

/-- Number of variables. -/
def size (p : Program α) : Nat := p.costs.size

/-! ## Building -/

def setConstant (p : Program α) (c : α) : Program α := { p with constant := c }

/-- Refuses a variable that the program does not have. -/
def checkVariable (p : Program α) (var : Nat) : Except (Error α) Unit :=
  if var < p.size then .ok () else .error (.problem (.unknownVariable var p.size))

/-- Sets the bounds of one variable. -/
def setBounds (p : Program α) (var : Nat) (lower upper : α) : Except (Error α) (Program α) := do
  p.checkVariable var
  if Scalar.isNaN lower || Scalar.isNaN upper then throw (.problem (.invalidBound var))
  return { p with
    lower := p.lower.setIfInBounds var lower
    upper := p.upper.setIfInBounds var upper }

/-- Sets the bounds of every variable. -/
def setAllBounds (p : Program α) (lower upper : α) : Except (Error α) (Program α) :=
  (List.range p.size).foldlM (fun q var => q.setBounds var lower upper) p

/-- Marks a variable as whole. -/
def markInteger (p : Program α) (var : Nat) : Except (Error α) (Program α) := do
  p.checkVariable var
  return { p with integers := (insertAscending var p.integers.toList).toArray }

/-- Marks a variable as zero or one: it is whole, and its bounds shrink into that range. -/
def markBinary (p : Program α) (var : Nat) : Except (Error α) (Program α) := do
  let q ← p.markInteger var
  return { q with
    binaries := (insertAscending var q.binaries.toList).toArray
    lower := q.lower.modify var (Scalar.maxNum · 0.0)
    upper := q.upper.modify var (Scalar.minNum · 1.0) }

/-- Marks every variable as whole. -/
def markAllInteger (p : Program α) : Except (Error α) (Program α) :=
  (List.range p.size).foldlM (fun q var => q.markInteger var) p

/-- Adds a row; its entries have to be finite and one for each variable. -/
def addRow (p : Program α) (coefs : Array α) (rhs : α) : Except (Error α) (Program α) := do
  if coefs.size ≠ p.size then throw (.problem (.rowLength coefs.size p.size))
  if coefs.any (!Scalar.isFinite ·) || !Scalar.isFinite rhs then
    throw (.problem .rowNotFinite)
  return { p with rows := p.rows.push ⟨coefs, rhs⟩ }

/-- One step of building a program. -/
inductive Step (α : Type) where
  | constant (value : α)
  | bounds (var : Nat) (lower upper : α)
  | allBounds (lower upper : α)
  | integer (var : Nat)
  | binary (var : Nat)
  | allInteger
  | row (coefs : Array α) (rhs : α)

def Step.apply (p : Program α) : Step α → Except (Error α) (Program α)
  | .constant value => .ok (p.setConstant value)
  | .bounds var lower upper => p.setBounds var lower upper
  | .allBounds lower upper => p.setAllBounds lower upper
  | .integer var => p.markInteger var
  | .binary var => p.markBinary var
  | .allInteger => p.markAllInteger
  | .row coefs rhs => p.addRow coefs rhs

/-- Builds a program; the first step that is refused ends it. -/
def build (sense : Sense) (costs : Array α) (steps : List (Step α)) :
    Except (Error α) (Program α) :=
  steps.foldlM Step.apply (ofCosts sense costs)

/-! ## Points -/

def objective (p : Program α) (x : Array α) : α := p.constant + Scalar.dot p.costs x

/-- Whether a point lies within the bounds, widened by a tolerance. -/
def withinBounds (p : Program α) (x : Array α) (tolerance : α) : Bool :=
  (x.zip (p.lower.zip p.upper)).all fun (v, l, u) =>
    decide (l - tolerance ≤ v) && decide (v ≤ u + tolerance)

/-- The tolerance of `accepts`. -/
def validationTolerance : α := 1e-6

/-- Whether a point is one finite number for each variable, lies within the bounds and satisfies
every row, up to a tolerance that grows with the right-hand side. -/
def accepts (p : Program α) (x : Array α) : Bool :=
  x.size == p.size && x.all Scalar.isFinite && p.withinBounds x validationTolerance &&
    p.rows.all fun row =>
      decide (row.violation x ≤ validationTolerance * (1.0 + Scalar.abs row.rhs))

/-- The program as the search sees it. -/
def problem (p : Program α) : Problem α where
  sense := p.sense
  integers := p.integers
  size := p.size
  objective := p.objective
  accepts := p.accepts

end Program

end BranchBound
