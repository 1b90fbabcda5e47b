import BranchBound.Scalar.Double

/-!
# Reading numbers

Whole numbers and decimals as they are written on a command line. A whole number is digits after an
optional `+`. A decimal is an optional sign and then a name (`inf`, `infinity`, `nan`, in any case
of letters) or digits with at most one point, at least one digit among them, and an optional
exponent. A decimal stands for the double nearest to it.
-/

namespace BranchBound.Decimal

/-- The value of a list of digits that continues `value`; nothing if one of them is no digit. -/
def digitsFrom? (value : Nat) : List Char → Option Nat
  | [] => some value
  | c :: rest =>
    if '0' ≤ c ∧ c ≤ '9' then digitsFrom? (10 * value + (c.toNat - '0'.toNat)) rest else none

/-- The value of a nonempty list of digits. -/
def digits? : List Char → Option Nat
  | [] => none
  | cs => digitsFrom? 0 cs

/-- Takes a leading sign off; the flag says whether it was a minus. -/
def signed : List Char → Bool × List Char
  | '+' :: rest => (false, rest)
  | '-' :: rest => (true, rest)
  | cs => (false, cs)

/-- A whole number below `bound`. -/
def natural? (bound : Nat) (text : String) : Option Nat :=
  let digits := match text.toList with
    | '+' :: rest => rest
    | cs => cs
  (digits? digits).filter (· < bound)

/-- The double nearest to `digits * 10 ^ exponent`. Exponents far out of range are decided by the
size of the number alone. -/
def nearest (digits : Nat) (exponent : Int) : Float :=
  let size := ((Nat.toDigits 10 digits).length : Int) + exponent
  if digits = 0 ∨ size < -400 then 0.0
  else if 400 < size then Double.inf
  else if exponent < 0 then Float.ofScientific digits true exponent.natAbs
  else Float.ofScientific digits false exponent.natAbs

/-- The exponent at the end of a decimal; nothing stands for zero. -/
def exponent? : List Char → Option Int
  | [] => some 0
  | c :: rest =>
    if c = 'e' ∨ c = 'E' then
      let (negative, digits) := signed rest
      (digits? digits).map fun n => if negative then -(n : Int) else n
    else none

/-- Digits with at most one point and an exponent. -/
def magnitude? (cs : List Char) : Option Float := do
  let isDigit := fun c : Char => '0' ≤ c && c ≤ '9'
  let whole := cs.takeWhile isDigit
  let rest := cs.dropWhile isDigit
  let (places, rest) := match rest with
    | '.' :: rest => (rest.takeWhile isDigit, rest.dropWhile isDigit)
    | rest => ([], rest)
  let digits ← digits? (whole ++ places)
  let exponent ← exponent? rest
  return nearest digits (exponent - places.length)

/-- A decimal, or the name of a number that is not finite. -/
def double? (text : String) : Option Float :=
  let (negative, cs) := signed text.toList
  let name := String.ofList (cs.map Char.toLower)
  let magnitude :=
    if name = "inf" ∨ name = "infinity" then some Double.inf
    else if name = "nan" then some Double.nan
    else magnitude? cs
  magnitude.map fun x => if negative then -x else x

end BranchBound.Decimal
