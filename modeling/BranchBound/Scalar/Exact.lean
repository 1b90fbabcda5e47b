import BranchBound.Scalar

/-!
# Exact numbers

Rationals with two infinities and an invalid number. The operations follow the rules of floating
point for infinite and invalid operands, with a single zero and without rounding, so a computation
on finite numbers that divides by no zero is the computation on rationals (`ofRat_add` and its
companions).
-/

namespace BranchBound

/-- A rational, an infinity, or the invalid number. -/
inductive Exact where
  | ofRat (q : Rat)
  | posInf
  | negInf
  | nan
  deriving DecidableEq

namespace Exact

protected def neg : Exact → Exact
  | ofRat q => ofRat (-q)
  | posInf => negInf
  | negInf => posInf
  | nan => nan

protected def add : Exact → Exact → Exact
  | nan, _ => nan
  | _, nan => nan
  | posInf, negInf => nan
  | negInf, posInf => nan
  | posInf, _ => posInf
  | _, posInf => posInf
  | negInf, _ => negInf
  | _, negInf => negInf
  | ofRat p, ofRat q => ofRat (p + q)

/-- Positive infinity times a rational. -/
def infTimes (q : Rat) : Exact :=
  if q = 0 then nan else if 0 < q then posInf else negInf

protected def mul : Exact → Exact → Exact
  | nan, _ => nan
  | _, nan => nan
  | posInf, posInf => posInf
  | posInf, negInf => negInf
  | negInf, posInf => negInf
  | negInf, negInf => posInf
  | posInf, ofRat q => infTimes q
  | ofRat q, posInf => infTimes q
  | negInf, ofRat q => (infTimes q).neg
  | ofRat q, negInf => (infTimes q).neg
  | ofRat p, ofRat q => ofRat (p * q)

protected def div : Exact → Exact → Exact
  | nan, _ => nan
  | _, nan => nan
  | ofRat p, ofRat q => if q = 0 then infTimes p else ofRat (p / q)
  | ofRat _, _ => ofRat 0
  | posInf, ofRat q => if q < 0 then negInf else posInf
  | negInf, ofRat q => if q < 0 then posInf else negInf
  | _, _ => nan

protected def blt : Exact → Exact → Bool
  | ofRat p, ofRat q => p < q
  | negInf, ofRat _ => true
  | negInf, posInf => true
  | ofRat _, posInf => true
  | _, _ => false

protected def beq : Exact → Exact → Bool
  | ofRat p, ofRat q => p = q
  | posInf, posInf => true
  | negInf, negInf => true
  | _, _ => false

protected def ble (a b : Exact) : Bool := a.blt b || a.beq b

protected def abs : Exact → Exact
  | ofRat q => ofRat q.abs
  | negInf => posInf
  | a => a

/-- Applies a rounding to whole numbers; infinities and the invalid number stay. -/
def mapWhole (f : Rat → Int) : Exact → Exact
  | ofRat q => ofRat (f q)
  | a => a

/-- The whole part, toward zero. -/
def truncate (q : Rat) : Int := if q < 0 then q.ceil else q.floor

/-- The nearest integer; halves go away from zero. -/
def nearest (q : Rat) : Int := if q < 0 then (q - 1 / 2).ceil else (q + 1 / 2).floor

/-- A rational keeps its whole part whatever its size; infinities go to the ends of 64 bits. -/
protected def toInt : Exact → Int
  | ofRat q => truncate q
  | posInf => Int64.maxValue.toInt
  | negInf => Int64.minValue.toInt
  | nan => 0

protected def toNat : Exact → Nat
  | ofRat q => (truncate q).toNat
  | posInf => UInt64.size - 1
  | negInf => 0
  | nan => 0

instance : Scalar Exact where
  add := Exact.add
  sub a b := a.add b.neg
  mul := Exact.mul
  div := Exact.div
  neg := Exact.neg
  lt a b := a.blt b
  le a b := a.ble b
  beq := Exact.beq
  ofScientific m s e := ofRat (OfScientific.ofScientific m s e)
  ltDecidable a b := inferInstanceAs (Decidable (a.blt b = true))
  leDecidable a b := inferInstanceAs (Decidable (a.ble b = true))
  inf := posInf
  nan := nan
  isFinite
    | ofRat _ => true
    | _ => false
  isNaN
    | nan => true
    | _ => false
  abs := Exact.abs
  floor := mapWhole Rat.floor
  ceil := mapWhole Rat.ceil
  round := mapWhole nearest
  toInt := Exact.toInt
  toNat := Exact.toNat
  ofInt n := ofRat n

theorem ofRat_add (p q : Rat) : ofRat p + ofRat q = ofRat (p + q) := rfl

theorem ofRat_sub (p q : Rat) : ofRat p - ofRat q = ofRat (p - q) := by
  rw [Rat.sub_eq_add_neg]; rfl

theorem ofRat_mul (p q : Rat) : ofRat p * ofRat q = ofRat (p * q) := rfl

theorem ofRat_div {q : Rat} (p : Rat) (h : q ≠ 0) : ofRat p / ofRat q = ofRat (p / q) :=
  if_neg h

theorem ofRat_lt (p q : Rat) : ofRat p < ofRat q ↔ p < q := decide_eq_true_iff

theorem ofRat_le (p q : Rat) : ofRat p ≤ ofRat q ↔ p ≤ q := by
  show (decide (p < q) || decide (p = q)) = true ↔ p ≤ q
  simp [Rat.le_iff_lt_or_eq]

end Exact

end BranchBound
