import BranchBound.Scalar

/-!
# Double precision

`Float` as a type of scalars. Whole-number rounding is written here in terms of the exact
conversions between doubles and unsigned 64-bit integers: below `2 ^ 52` the whole part of a double
fits such an integer and comes back unchanged, and from there on every double is whole.
-/

namespace BranchBound.Double

/-- From here on every double is whole. -/
def wholeFrom : Float := 4503599627370496.0

/-- The double nearest to a natural number. One of 64 bits is converted by the machine. -/
def ofNat (n : Nat) : Float :=
  if n < UInt64.size then (UInt64.ofNat n).toFloat else .ofModel (.ofNat n)

/-- The double nearest to an integer. -/
def ofInt : Int → Float
  | .ofNat n => ofNat n
  | .negSucc n => -ofNat (n + 1)

/-- The whole part, toward zero, of a double within 64 bits. The invalid number gives zero. -/
def truncate (x : Float) : Int :=
  let n : Int := x.abs.toUInt64.toNat
  if x < 0.0 then -n else n

def floor (x : Float) : Float :=
  if x.abs < wholeFrom then
    let n := truncate x
    ofInt (if x < ofInt n then n - 1 else n)
  else x

def ceil (x : Float) : Float :=
  if x.abs < wholeFrom then
    let n := truncate x
    ofInt (if ofInt n < x then n + 1 else n)
  else x

/-- The difference to the whole part is exact, so halves are seen as halves. -/
def round (x : Float) : Float :=
  if x.abs < wholeFrom then
    let n := truncate x
    let d := x - ofInt n
    ofInt (if 0.5 ≤ d then n + 1 else if d ≤ -0.5 then n - 1 else n)
  else x

/-- The whole part, moved into the range of signed 64-bit integers. -/
def toInt (x : Float) : Int :=
  max Int64.minValue.toInt (min Int64.maxValue.toInt (truncate x))

/-- Positive infinity. -/
def inf : Float := Float.ofBits 0x7FF0000000000000

/-- The invalid number. -/
def nan : Float := Float.ofBits 0x7FF8000000000000

end BranchBound.Double

namespace BranchBound

instance : Scalar Float where
  ltDecidable := inferInstance
  leDecidable := inferInstance
  inf := Double.inf
  nan := Double.nan
  isFinite := Float.isFinite
  isNaN := Float.isNaN
  abs := Float.abs
  floor := Double.floor
  ceil := Double.ceil
  round := Double.round
  toInt := Double.toInt
  toNat x := x.toUInt64.toNat
  ofInt := Double.ofInt

end BranchBound
