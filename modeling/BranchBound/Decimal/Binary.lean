/-!
# Doubles as binary fractions

A finite double is a whole number of at most 53 bits times a power of two. Everything that is
written about a double is computed from these two numbers, in exact arithmetic.
-/

namespace BranchBound.Decimal

/-- The number `mantissa * 2 ^ exponent`. -/
structure Binary where
  mantissa : Nat
  exponent : Int
  deriving DecidableEq

/-- A double taken apart: its sign, and its magnitude unless it is the invalid number. -/
inductive Parts where
  | nan
  | infinite (negative : Bool)
  | finite (negative : Bool) (magnitude : Binary)
  deriving DecidableEq

namespace Parts

/-- Takes the bits of a double apart: a sign bit, 11 bits of exponent and 52 of fraction. The least
exponent means that the leading bit is not there. -/
def ofBits (bits : Nat) : Parts :=
  let negative := bits / Nat.pow 2 63 % 2 = 1
  let exponent : Nat := bits / Nat.pow 2 52 % Nat.pow 2 11
  let fraction := bits % Nat.pow 2 52
  if exponent = 2047 then
    if fraction = 0 then infinite negative else nan
  else if exponent = 0 then finite negative ⟨fraction, -1074⟩
  else finite negative ⟨Nat.pow 2 52 + fraction, (exponent : Int) - 1075⟩

def ofFloat (x : Float) : Parts := ofBits x.toBits.toNat

end Parts

namespace Binary

/-- The number as a quotient of whole numbers. -/
def num (b : Binary) : Nat := b.mantissa * Nat.pow 2 b.exponent.toNat

def den (b : Binary) : Nat := Nat.pow 2 (-b.exponent).toNat

end Binary

end BranchBound.Decimal
