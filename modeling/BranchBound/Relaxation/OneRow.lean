import BranchBound.Program
import BranchBound.Relaxation

/-!
# The relaxation of a program with at most one row

Without the demand that variables be whole, a program with one row `a · x ≤ b` is solved greedily.
Every variable that occurs in the row starts at the end of its range where its activity `aⱼ xⱼ` is
lowest, and what is left of `b` goes to the variables in the order of what they gain in the
objective for a unit of activity.

Variables whose activity has no lowest value set a price for the row: the least gain among them.
What gains more than the price goes to its highest activity, and one variable of the price, the
pivot, takes up what is then left of `b`. If the price is negative, or some variable could gain more
than it without end, the objective is unbounded.

Without a price at most one variable of the row ends strictly between its bounds. The loops run over
lists of variables, so they end with the list.
-/

namespace BranchBound

/-- A program with at most one row, ready to be solved over a box. -/
structure OneRow (α : Type) where
  program : Program α
  /-- The objective coefficients of the program, negated if it maximises. -/
  costs : Array α

namespace OneRow

variable {α : Type} [Scalar α]

def ofProgram (p : Program α) : Except (Error α) (OneRow α) :=
  if 1 < p.rows.size then .error (.problem (.tooManyRows p.rows.size))
  else .ok
    { program := p
      costs := match p.sense with
        | .minimise => p.costs
        | .maximise => p.costs.map (-·) }

/-! ## Variables -/

/-- One variable: its cost, its coefficient in the row, and its bounds. -/
structure Column (α : Type) where
  var : Nat
  cost : α
  coef : α
  lower : α
  upper : α

/-- Where a variable stands in the range of its activity. -/
inductive Level (α : Type) where
  | low
  | high
  | at (activity : α)

namespace Column

/-- The best value of a variable that is not in the row: a bound, or zero if nothing binds it and it
costs nothing. -/
def resting (c : Column α) : α :=
  if 0.0 < c.cost then c.lower
  else if c.cost < 0.0 then c.upper
  else if Scalar.isFinite c.lower then c.lower
  else if Scalar.isFinite c.upper then c.upper
  else 0.0

/-- The lowest activity. -/
def low (c : Column α) : α := if 0.0 < c.coef then c.coef * c.lower else c.coef * c.upper

/-- The highest activity. -/
def high (c : Column α) : α := if 0.0 < c.coef then c.coef * c.upper else c.coef * c.lower

/-- What a unit of activity gains in the objective. -/
def gain (c : Column α) : α := -c.cost / c.coef

def activity (c : Column α) : Level α → α
  | .low => c.low
  | .high => c.high
  | .at y => y

/-- The value of the variable at a level. At an end of the range it is the bound itself. -/
def value (c : Column α) : Level α → α
  | .low => if 0.0 < c.coef then c.lower else c.upper
  | .high => if 0.0 < c.coef then c.upper else c.lower
  | .at y => y / c.coef

/-- The level of a variable under a price. -/
def priced (c : Column α) (price : α) : Level α :=
  if price < c.gain then .high
  else if c.gain == price && Scalar.isInfinite c.low then
    if Scalar.isFinite c.high then .high else .at 0.0
  else .low

/-- Whether a variable at a level is worth raising: it is low, gains, and has room. -/
def canRise (c : Column α) : Level α → Bool
  | .low => decide (0.0 < c.gain) && decide (c.low < c.high)
  | _ => false

/-- The order in which variables are raised: by gain, the greatest first, and then by index. -/
def before (c d : Column α) : Bool :=
  if d.gain < c.gain then true else if c.gain < d.gain then false else decide (c.var ≤ d.var)

end Column

/-- The variables, each with its numbers. -/
def columns (costs coefs lower upper : Array α) : List (Column α) :=
  (costs.zip (coefs.zip (lower.zip upper))).toList.zipIdx.map
    fun ((cost, coef, l, u), var) => ⟨var, cost, coef, l, u⟩

/-! ## Filling the row -/

/-- The greatest gain of a variable that can be raised without end, and zero at least. -/
def floorPrice (cols : List (Column α)) : α :=
  cols.foldl (fun price c => if c.high == Scalar.inf then Scalar.maxNum price c.gain else price) 0.0

/-- Whether a variable is to be the pivot in place of another one. -/
def Column.pivotsBefore (c d : Column α) : Bool :=
  decide (c.gain < d.gain) ||
    (c.gain == d.gain && Scalar.isFinite d.high && Scalar.isInfinite c.high)

/-- The variable that sets the price: the one of least gain among those whose activity has no lowest
value. -/
def pivot? (cols : List (Column α)) : Option (Column α) :=
  cols.foldl (fun pivot c =>
    if c.low == -Scalar.inf then
      match pivot with
      | none => some c
      | some p => if c.pivotsBefore p then some c else some p
    else pivot) none

/-- Raises variables one after the other until the slack is used up. -/
def fill (slack : α) : List (Column α) → List (Column α × Level α)
  | [] => []
  | c :: rest =>
    if slack ≤ 0.0 then []
    else
      let room := c.high - c.low
      if room ≤ slack then (c, .high) :: fill (slack - room) rest
      else [(c, .at (c.low + slack))]

/-- The variables that are worth raising, in order. -/
def risers (levels : List (Column α × Level α)) : List (Column α) :=
  ((levels.filter fun (c, level) => c.canRise level).map Prod.fst).mergeSort Column.before

/-- The activity of the row at given levels. -/
def rowActivity (levels : List (Column α × Level α)) : α :=
  Scalar.sum (levels.map fun (c, level) => c.activity level).toArray

/-- Writes the values of variables at given levels into a point. -/
def write (x : Array α) (levels : List (Column α × Level α)) : Array α :=
  levels.foldl (fun x (c, level) => x.setIfInBounds c.var (c.value level)) x

/-- How far a lower bound may be above an upper one, and the activity of a row above a right-hand
side of zero. -/
def boundTolerance : α := 1e-9

/-- What comes of placing the variables of a box. -/
inductive Placement (α : Type) where
  | solved (point : Array α)
  | infeasible
  | unbounded

/-- A point, unless one of its coordinates ran off. -/
def Placement.ofPoint (x : Array α) : Placement α :=
  if x.any (!Scalar.isFinite ·) then .unbounded else .solved x

/-- Places the variables of a row when one of them sets the price. -/
def solvePriced (rhs : α) (pivot : Column α) (cols : List (Column α)) (x : Array α) : Placement α :=
  if pivot.gain < floorPrice cols then .unbounded
  else
    let others := (cols.filter fun c => c.var != pivot.var).map fun c => (c, c.priced pivot.gain)
    let slack := rhs - rowActivity others
    if pivot.high ≤ slack then
      .ofPoint (write x (others ++ fill (slack - pivot.high) (risers others) ++ [(pivot, .high)]))
    else .ofPoint (write x (others ++ [(pivot, .at slack)]))

/-- Places the variables of a row when the activity of each has a lowest value. -/
def solveBounded (rhs : α) (cols : List (Column α)) (x : Array α) : Placement α :=
  let levels := cols.map fun c => (c, Level.low)
  let slack := rhs - rowActivity levels
  if slack < -boundTolerance * (1.0 + Scalar.abs rhs) then .infeasible
  else .ofPoint (write x (levels ++ fill (Scalar.maxNum slack 0.0) (risers levels)))

/-- Places the variables of a row; the others have their values in the point already. -/
def solveRow (rhs : α) (cols : List (Column α)) (x : Array α) : Placement α :=
  match pivot? cols with
  | some pivot => solvePriced rhs pivot cols x
  | none => solveBounded rhs cols x

/-! ## Solving over a box -/

/-- The row of the program. -/
def row? (r : OneRow α) : Option (Row α) := r.program.rows[0]?

/-- The variables over a box. Without a row every coefficient is zero. -/
def columnsOver (r : OneRow α) (lower upper : Array α) : List (Column α) :=
  let coefs := match r.row? with
    | some row => row.coefs
    | none => Array.replicate r.costs.size 0.0
  columns r.costs coefs lower upper

/-- Solves over a box. The variables that are not in the row go to their best values first. -/
def solveBox (r : OneRow α) (lower upper : Array α) : Placement α :=
  let cols := r.columnsOver lower upper
  let free := cols.filter fun c => c.coef == 0.0
  let bound := cols.filter fun c => !(c.coef == 0.0)
  if free.any fun c => !Scalar.isFinite c.resting then .unbounded
  else
    let x := free.foldl (fun x c => x.setIfInBounds c.var c.resting)
      (Array.replicate r.costs.size 0.0)
    match r.row? with
    | some row => solveRow row.rhs bound x
    | none => .solved x

/-- The answer for a node. A box whose bounds cross is infeasible, and so is one whose best value is
beyond the cutoff. -/
def answer (r : OneRow α) (node : Node α) (cutoff : Option (Cutoff α)) :
    Except (Error α) (Answer α) := do
  let (lower, upper) ← node.tighten r.program.lower r.program.upper
  if (lower.zip upper).any fun (l, u) => decide (u + boundTolerance < l) then return .infeasible
  match r.solveBox lower upper with
  | .unbounded => return .failed
  | .infeasible => return .infeasible
  | .solved x =>
    let objective := r.program.objective x
    if cutoff.any (·.excludes objective) then return .infeasible
    return .optimal x objective

/-- The relaxation does not depend on earlier calls. -/
def relaxation (r : OneRow α) : Relaxation α := fun _ node cutoff => r.answer node cutoff

end OneRow

end BranchBound
