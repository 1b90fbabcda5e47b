import BranchBound.Decimal.Shortest

/-!
# Layouts of a number

The digits of a double are laid out in one of four ways: plain positional text, scientific text with
a number of places, positional text with a number of places, and the form of a record's number,
which always shows a point or an exponent.
-/

namespace BranchBound.Decimal

def zeros (n : Nat) : String := "".pushn '0' n

/-- Puts a point before the last `places` digits, with zeros in front where digits are missing. -/
def withPoint (digits places : Nat) : String :=
  let text := toString digits
  if places = 0 then text
  else
    let padded := zeros (places + 1 - text.length) ++ text
    let whole := padded.length - places
    (padded.take whole).toString ++ "." ++ (padded.drop whole).toString

/-- Positional text without an exponent, as long as it takes. -/
def Scaled.plain (s : Scaled) : String :=
  if 0 ≤ s.exponent then
    if s.digits = 0 then "0" else toString s.digits ++ zeros s.exponent.toNat
  else withPoint s.digits (-s.exponent).toNat

/-- One digit, a point, the other digits if there are any. -/
def pointed (digits : Nat) : String :=
  let text := toString digits
  if text.length ≤ 1 then text else (text.take 1).toString ++ "." ++ (text.drop 1).toString

/-- The number of a record: positional while the point stands within the first sixteen digits or at
most four zeros follow it, scientific otherwise. A whole number shows `.0`. -/
def Scaled.record (s : Scaled) : String :=
  let point := (toString s.digits).length + s.exponent
  if 0 ≤ s.exponent ∧ point ≤ 16 then s.plain ++ ".0"
  else if -5 < point ∧ point ≤ 16 then s.plain
  else pointed s.digits ++ "e" ++ toString (point - 1)

/-- A sign for a negative number, infinities and the invalid number by name, and the magnitude of
anything else as `layout` has it. -/
def text (layout : Binary → String) (x : Float) : String :=
  match Parts.ofFloat x with
  | .nan => "NaN"
  | .infinite negative => (if negative then "-" else "") ++ "inf"
  | .finite negative b => (if negative then "-" else "") ++ layout b

/-- The shortest text that reads back, never with an exponent. -/
def plain : Float → String :=
  text fun b => if b.mantissa = 0 then "0" else (shortest b).plain

/-- Scientific text with `places` digits after the point. -/
def scientific (places : Nat) : Float → String :=
  text fun b =>
    let (digits, exponent) :=
      if b.mantissa = 0 then (0, 0) else significant (places + 1) b.num b.den
    withPoint digits places ++ "e" ++ toString exponent

/-- Positional text with `places` digits after the point. -/
def fixed (places : Nat) : Float → String :=
  text fun b => withPoint (inUnits b.num b.den (-places)) places

/-- The number of a record; what is not finite has no number there. -/
def record (x : Float) : String :=
  match Parts.ofFloat x with
  | .finite negative b =>
    (if negative then "-" else "") ++ if b.mantissa = 0 then "0.0" else (shortest b).record
  | _ => "null"

end BranchBound.Decimal
