/-!
# Scalars

The search, the linear program and its relaxation compute with numbers of one type `α`, named here
by what they need of it. Two types fit:

* `Float` (`BranchBound.Scalar.Double`): the numbers the program runs on, rounded after every
  operation.
* `Exact` (`BranchBound.Scalar.Exact`): rationals with both infinities and an invalid number, where
  nothing is rounded. What a run would decide without rounding is said over this type.

Order matters in rounded arithmetic, so sums and products are taken in one fixed order (`sum`,
`dot`), and comparisons with the invalid number are always false.
-/

namespace BranchBound

/-- Numbers with infinities and an invalid number, as the solver uses them. -/
class Scalar (α : Type) extends Add α, Sub α, Mul α, Div α, Neg α, LT α, LE α, BEq α,
    OfScientific α where
  ltDecidable : DecidableLT α
  leDecidable : DecidableLE α
  /-- Positive infinity. -/
  inf : α
  /-- The invalid number: it differs from everything, itself included. -/
  nan : α
  /-- Neither infinite nor invalid. -/
  isFinite : α → Bool
  isNaN : α → Bool
  abs : α → α
  /-- The greatest whole number that is not above. -/
  floor : α → α
  /-- The least whole number that is not below. -/
  ceil : α → α
  /-- The nearest whole number; halves go away from zero. -/
  round : α → α
  /-- The whole part, moved into the range of the type's machine integers if it has any. The
  invalid number gives zero. -/
  toInt : α → Int
  /-- The whole part, moved into the range of the type's unsigned machine integers if it has any.
  Negative numbers and the invalid number give zero. -/
  toNat : α → Nat
  /-- The nearest number to an integer. -/
  ofInt : Int → α

namespace Scalar

variable {α : Type} [Scalar α]

instance (a b : α) : Decidable (a < b) := ltDecidable a b

instance (a b : α) : Decidable (a ≤ b) := leDecidable a b

/-- The nearest number to a natural number. -/
def ofNat (n : Nat) : α := ofInt n

def isInfinite (a : α) : Bool := !isNaN a && !isFinite a

/-- The greater of two numbers. An invalid operand is passed over; of two equal ones, which only
zeros of two signs tell apart, the second is taken. -/
def maxNum (a b : α) : α :=
  if isNaN a then b else if isNaN b then a else if b < a then a else b

/-- The lesser of two numbers. An invalid operand is passed over; of two equal ones the second is
taken. -/
def minNum (a b : α) : α :=
  if isNaN a then b else if isNaN b then a else if a < b then a else b

/-- The sum from left to right. It starts at minus zero, the only number that changes no summand,
so the sum of nothing is minus zero. -/
def sum (xs : Array α) : α := xs.foldl (· + ·) (-0.0)

/-- The products of two vectors added from left to right, as far as both go. -/
def dot (a x : Array α) : α := sum (Array.zipWith (· * ·) a x)

end Scalar

end BranchBound
