import BranchBound.Decimal.Rounding

/-!
# Shortest digits

The decimal with the fewest digits among those that a reader who rounds to the nearest double reads
back as the given one, and of these the nearest to it. The reals that read back form an interval
whose ends lie halfway to the neighbouring doubles; the ends belong to it when the mantissa is even.

For one digit, two digits and so on, the two neighbours of the value on that decimal grid are tried:
if any point of a grid lies in the interval, one of the neighbours does. Seventeen digits always
suffice, so the number of grids is fixed and no loop runs on.
-/

namespace BranchBound.Decimal

/-- The number `digits * 10 ^ exponent`. -/
structure Scaled where
  digits : Nat
  exponent : Int
  deriving DecidableEq

namespace Scaled

/-- Moves trailing zeros of the digits into the exponent, `fuel` of them at most. -/
def strip : Nat → Scaled → Scaled
  | 0, s => s
  | fuel + 1, s =>
    if s.digits ≠ 0 ∧ s.digits % 10 = 0 then strip fuel ⟨s.digits / 10, s.exponent + 1⟩ else s

end Scaled

/-- A value, the ends of its rounding interval, and whether the ends belong to it, all over one
denominator. -/
structure Interval where
  low : Nat
  value : Nat
  high : Nat
  den : Nat
  closed : Bool

namespace Interval

/-- The reals that round to a positive double. Below a power of two the doubles are twice as dense,
so there the lower end is nearer, except at the least exponent. -/
def ofBinary (b : Binary) : Interval :=
  let narrow := b.mantissa = Nat.pow 2 52 ∧ -1074 < b.exponent
  let fine : Binary := ⟨4 * b.mantissa, b.exponent - 2⟩
  let step := Nat.pow 2 fine.exponent.toNat
  { low := fine.num - (if narrow then step else 2 * step)
    value := fine.num
    high := fine.num + 2 * step
    den := fine.den
    closed := b.mantissa % 2 = 0 }

/-- The value in units of `10 ^ unit`, as a quotient. -/
def scaled (i : Interval) (unit : Int) : Nat × Nat :=
  (i.value * Nat.pow 10 (-unit).toNat, i.den * Nat.pow 10 unit.toNat)

/-- Whether `c` units of `10 ^ unit` lie in the interval. -/
def contains (i : Interval) (unit : Int) (c : Nat) : Bool :=
  let point := c * (i.den * Nat.pow 10 unit.toNat)
  let low := i.low * Nat.pow 10 (-unit).toNat
  let high := i.high * Nat.pow 10 (-unit).toNat
  if i.closed then low ≤ point && point ≤ high else low < point && point < high

/-- The neighbour of the value on the grid of `10 ^ unit` that lies in the interval; of two the
nearer, and the upper of two at one distance. -/
def onGrid (i : Interval) (unit : Int) : Option Scaled :=
  let (num, den) := i.scaled unit
  let below := num / den
  match i.contains unit below, i.contains unit (below + 1) with
  | false, false => none
  | true, false => some ⟨below, unit⟩
  | false, true => some ⟨below + 1, unit⟩
  | true, true => if den ≤ 2 * (num % den) then some ⟨below + 1, unit⟩ else some ⟨below, unit⟩

end Interval

/-- The shortest decimal that reads back as a positive double. -/
def shortest (b : Binary) : Scaled :=
  let i := Interval.ofBinary b
  let p := leadingExponent i.value i.den
  let found := (List.range 17).findSome? fun (k : Nat) => i.onGrid (p - k)
  (found.getD ⟨b.num, 0⟩).strip 20

end BranchBound.Decimal
