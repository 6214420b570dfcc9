/-!
# Double-precision numbers as exact dyadics

A finite number is `mantissa * 2 ^ exponent` in `Nat` and `Int`, so nothing here depends on the
machine's arithmetic. `roundDecimal` takes a decimal fraction to the nearest double, a tie going to
the even mantissa.
-/

namespace LayeredConfig

/-- A double-precision number. A finite one has its mantissa below `2 ^ 53` and its exponent between
`-1074` and `971`. -/
inductive Binary64 where
  | nan
  | infinity (negative : Bool)
  | finite (negative : Bool) (mantissa : Nat) (exponent : Int)
  deriving DecidableEq, Repr, Inhabited

namespace Binary64

/-- The least exponent of a finite number. -/
def minExponent : Int := -1074

/-- The greatest exponent of a finite number. -/
def maxExponent : Int := 971

/-- The number of bits of a full mantissa. -/
def precision : Nat := 53

/-- Zero with a sign. -/
def zero (negative : Bool) : Binary64 := .finite negative 0 minExponent

/-- Whether a number is neither infinite nor without value. -/
def isFinite : Binary64 → Bool
  | .finite .. => true
  | _ => false

/-- The quotient rounded to the nearest natural number, a tie going to the even one. -/
def roundDiv (num den : Nat) : Nat :=
  let quotient := num / den
  let twice := 2 * (num % den)
  if twice < den then quotient
  else if den < twice then quotient + 1
  else quotient + quotient % 2

/-- `num / den` divided by `2 ^ exponent` and rounded. -/
def roundAt (num den : Nat) (exponent : Int) : Nat :=
  if 0 ≤ exponent then roundDiv num (den * Nat.pow 2 exponent.toNat)
  else roundDiv (num * Nat.pow 2 (-exponent).toNat) den

/-- The exponent at which the positive fraction `num / den` has a full mantissa, or the least one. -/
def exponentOf (num den : Nat) : Int :=
  let guess : Int := (num.log2 : Int) - den.log2 - 52
  let full :=
    if 0 ≤ guess then decide (den * Nat.pow 2 (guess.toNat + 52) ≤ num)
    else decide (den * Nat.pow 2 52 ≤ num * Nat.pow 2 (-guess).toNat)
  max minExponent (if full then guess else guess - 1)

/-- The double nearest to the fraction `num / den`. -/
def ofFraction (negative : Bool) (num den : Nat) : Binary64 :=
  if num = 0 then zero negative
  else
    let exponent := exponentOf num den
    let mantissa := roundAt num den exponent
    let (mantissa, exponent) :=
      if mantissa = Nat.pow 2 precision then (Nat.pow 2 (precision - 1), exponent + 1)
      else (mantissa, exponent)
    if maxExponent < exponent then .infinity negative else .finite negative mantissa exponent

/-- The double nearest to `digits * 10 ^ scale`. Scales so far out that the answer is infinite or
zero for every such number of digits are settled without the power. -/
def roundDecimal (negative : Bool) (digits : Nat) (scale : Int) : Binary64 :=
  if digits = 0 then zero negative
  else
    let magnitude : Int := digits.log2 / 3 + 1 + scale
    if magnitude < -400 then zero negative
    else if 400 < (digits.log2 / 4 : Int) + scale then .infinity negative
    else if 0 ≤ scale then ofFraction negative (digits * Nat.pow 10 scale.toNat) 1
    else ofFraction negative digits (Nat.pow 10 (-scale).toNat)

end Binary64

end LayeredConfig
