import LayeredConfig.Decimal.Binary64

/-!
# The fewest digits that read back

`Binary64.shortest` gives, for a positive double, the decimal with the fewest digits inside the
interval of reals that round to it, and among those the nearest. The ends of the interval belong to
it when the mantissa is even. All comparisons are between natural numbers: the value and both ends
are numerators over one common denominator.
-/

namespace LayeredConfig.Binary64

/-- A positive value between the two ends of its rounding interval, as numerators over one
denominator. -/
structure Interval where
  low : Nat
  value : Nat
  high : Nat
  den : Nat
  /-- Whether the two ends belong to the interval. -/
  closed : Bool
  deriving Repr

/-- The rounding interval of `mantissa * 2 ^ exponent`. Below a power of two the gap is half as
wide. -/
def interval (mantissa : Nat) (exponent : Int) : Interval :=
  let below := if mantissa = Nat.pow 2 (precision - 1) ∧ minExponent < exponent then 1 else 2
  let unit := if 2 ≤ exponent then Nat.pow 2 (exponent - 2).toNat else 1
  { low := (4 * mantissa - below) * unit
    value := 4 * mantissa * unit
    high := (4 * mantissa + 2) * unit
    den := if 2 ≤ exponent then 1 else Nat.pow 2 (2 - exponent).toNat
    closed := mantissa % 2 = 0 }

/-- Whether `digits / den'` lies in the interval, everything being multiplied by `times`. -/
def Interval.holds (i : Interval) (times point : Nat) : Bool :=
  if i.closed then i.low * times ≤ point && point ≤ i.high * times
  else i.low * times < point && point < i.high * times

/-- The multiple of `10 ^ scale` in the interval that is nearest to the value, if there is one. -/
def Interval.nearest? (i : Interval) (scale : Int) : Option Nat :=
  let times := if 0 ≤ scale then 1 else Nat.pow 10 (-scale).toNat
  let step := i.den * (if 0 ≤ scale then Nat.pow 10 scale.toNat else 1)
  let value := i.value * times
  let floor := value / step
  let lower := i.holds times (floor * step) && 0 < floor
  let upper := i.holds times ((floor + 1) * step)
  let twice := 2 * (value % step)
  if lower && upper then
    some (if twice < step ∨ (twice = step ∧ floor % 2 = 0) then floor else floor + 1)
  else if lower then some floor
  else if upper then some (floor + 1)
  else none

/-- The number of zeros between the point and the first digit of `num / den`, counted on from
`count`. -/
def leadingZeros (den : Nat) : Nat → Nat → Nat → Nat
  | 0, count, _ => count
  | fuel + 1, count, num =>
    if den ≤ num * 10 then count else leadingZeros den fuel (count + 1) (num * 10)

/-- The number of decimal digits before the point, or minus the number of zeros that follow it: the
`e` with `10 ^ (e - 1) ≤ num / den < 10 ^ e`. -/
def decimalExponent (num den : Nat) : Int :=
  if den ≤ num then ((Nat.toDigits 10 (num / den)).length : Int)
  else -(leadingZeros den 330 0 num : Int)

/-- `digits * 10 ^ scale` without trailing zeros in `digits`. -/
def stripZeros (fuel digits : Nat) (scale : Int) : Nat × Int :=
  match fuel with
  | 0 => (digits, scale)
  | fuel + 1 =>
    if digits % 10 = 0 ∧ digits ≠ 0 then stripZeros fuel (digits / 10) (scale + 1)
    else (digits, scale)

/-- The first grid, from coarse to fine, that has a point in the interval, with that point. -/
def Interval.firstHit (i : Interval) (exponent : Int) : Nat → Nat → Nat × Int
  | 0, _ => (i.value / i.den, 0)
  | fuel + 1, count =>
    let scale := exponent - count
    match i.nearest? scale with
    | some digits => stripZeros 20 digits scale
    | none => i.firstHit exponent fuel (count + 1)

/-- The shortest decimal `digits * 10 ^ scale` that reads back as `mantissa * 2 ^ exponent`, for a
positive mantissa. -/
def shortest (mantissa : Nat) (exponent : Int) : Nat × Int :=
  let i := interval mantissa exponent
  i.firstHit (decimalExponent i.value i.den) 17 1

end LayeredConfig.Binary64
