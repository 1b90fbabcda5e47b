import BranchBound.Decimal.Binary

/-!
# Rounding to decimal digits

A quotient of whole numbers rounded to a whole number, to a number of significant digits, or to a
number of places. The exact value is what is rounded, and a tie goes to the even neighbour.

`roundDiv_le` and `le_roundDiv` say that the result is at most half a unit away.
-/

namespace BranchBound.Decimal

/-- The whole number nearest to `num / den`; a tie goes to the even one. -/
def roundDiv (num den : Nat) : Nat :=
  let q := num / den
  let r := num % den
  if 2 * r < den then q else if den < 2 * r then q + 1 else q + q % 2

theorem le_roundDiv (num : Nat) {den : Nat} (h : 0 < den) :
    2 * num ≤ (2 * roundDiv num den + 1) * den := by
  have hdiv := Nat.div_add_mod num den
  have hmod := Nat.mod_lt num h
  simp only [roundDiv]
  generalize num / den = q at hdiv ⊢
  generalize num % den = r at hdiv hmod ⊢
  subst hdiv
  have hself : (2 * q + 1) * den = 2 * (den * q) + den := by
    rw [Nat.add_mul, Nat.one_mul, Nat.mul_assoc, Nat.mul_comm q den]
  have hup : ∀ k, q ≤ k → (2 * q + 1) * den ≤ (2 * k + 1) * den := fun k hk =>
    Nat.mul_le_mul_right den (by omega)
  split
  · omega
  · split
    · have hnext : (2 * (q + 1) + 1) * den = (2 * q + 1) * den + 2 * den := by
        rw [← Nat.add_mul]; congr 1
      omega
    · have := hup (q + q % 2) (Nat.le_add_right _ _)
      omega

theorem roundDiv_le (num : Nat) {den : Nat} (h : 0 < den) :
    2 * roundDiv num den * den ≤ 2 * num + den := by
  have hdiv := Nat.div_add_mod num den
  have hmod := Nat.mod_lt num h
  simp only [roundDiv]
  generalize num / den = q at hdiv ⊢
  generalize num % den = r at hdiv hmod ⊢
  subst hdiv
  have hstep : 2 * (q + 1) * den = 2 * (den * q) + 2 * den := by
    rw [Nat.mul_assoc, Nat.add_mul, Nat.mul_add, Nat.mul_comm q den, Nat.one_mul]
  have hself : 2 * q * den = 2 * (den * q) := by rw [Nat.mul_assoc, Nat.mul_comm q den]
  split
  · omega
  · split
    · omega
    · have hpar : q + q % 2 ≤ q + 1 := by omega
      have := Nat.mul_le_mul_right den (Nat.mul_le_mul_left 2 hpar)
      omega

/-- The number of decimal digits. -/
def digitCount (n : Nat) : Nat := (Nat.toDigits 10 n).length

/-- The greatest `p` with `10 ^ p ≤ num / den`, the exponent of the leading digit, when both numbers
are positive. -/
def leadingExponent (num den : Nat) : Int :=
  if den ≤ num then (digitCount (num / den) : Int) - 1
  else
    let k := digitCount (den / num)
    if num * Nat.pow 10 (k - 1) = den then 1 - (k : Int) else -(k : Int)

/-- `num / den` in units of `10 ^ unit`, rounded. -/
def inUnits (num den : Nat) (unit : Int) : Nat :=
  roundDiv (num * Nat.pow 10 (-unit).toNat) (den * Nat.pow 10 unit.toNat)

/-- A positive quotient rounded to `count` significant digits: the digits as one number, and the
exponent of the leading one. -/
def significant (count num den : Nat) : Nat × Int :=
  let p := leadingExponent num den
  let digits := inUnits num den (p - count + 1)
  if digits = Nat.pow 10 count then (Nat.pow 10 (count - 1), p + 1) else (digits, p)

end BranchBound.Decimal
