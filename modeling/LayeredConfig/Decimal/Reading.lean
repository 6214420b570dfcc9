import LayeredConfig.Decimal.Binary64
import LayeredConfig.Text.Blank

/-!
# Reading numbers

An integer is an optional sign and decimal digits. A double is an optional sign and digits with at
most one point and at least one digit, then optionally `e` or `E` with an optionally signed
exponent. `inf`, `infinity` and `nan` are read in any case.
-/

namespace LayeredConfig.Decimal

/-- Whether a character is one of `0` to `9`. -/
def isDigit (c : Char) : Bool := '0' ≤ c && c ≤ '9'

/-- The value of a digit of a base up to sixteen. -/
def digitValue (c : Char) : Nat :=
  if isDigit c then c.toNat - '0'.toNat
  else if 'a' ≤ c ∧ c ≤ 'f' then c.toNat - 'a'.toNat + 10
  else if 'A' ≤ c ∧ c ≤ 'F' then c.toNat - 'A'.toNat + 10
  else 0

/-- Whether a character is a digit of a base up to sixteen. -/
def isDigitOf (base : Nat) (c : Char) : Bool :=
  (isDigit c || ('a' ≤ c && c ≤ 'f') || ('A' ≤ c && c ≤ 'F')) && digitValue c < base

/-- The number that digits of a base stand for. -/
def ofDigits (base : Nat) (ds : List Char) : Nat :=
  ds.foldl (fun n c => n * base + digitValue c) 0

/-- A leading sign, as whether it is a minus, and the rest. -/
def splitSign : List Char → Bool × List Char
  | '-' :: cs => (true, cs)
  | '+' :: cs => (false, cs)
  | cs => (false, cs)

/-- The number that a text of digits of a base stands for. There is at least one digit. -/
def readNat? (base : Nat) (cs : List Char) : Option Nat :=
  if !cs.isEmpty && cs.all (isDigitOf base) then some (ofDigits base cs) else none

/-- The number that an optionally signed text of decimal digits stands for. -/
def readInt? (cs : List Char) : Option Int :=
  let (negative, ds) := splitSign cs
  (readNat? 10 ds).map fun n => if negative then -(n : Int) else n

/-- The parts of an unsigned decimal: integer digits, fraction digits, exponent. -/
def readParts? (cs : List Char) : Option (List Char × List Char × Int) :=
  let whole := cs.takeWhile isDigit
  let rest := cs.dropWhile isDigit
  let (fraction, rest) : List Char × List Char := match rest with
    | '.' :: rest => (rest.takeWhile isDigit, rest.dropWhile isDigit)
    | rest => ([], rest)
  if whole.isEmpty && fraction.isEmpty then none
  else match rest with
    | [] => some (whole, fraction, 0)
    | c :: rest => if c = 'e' ∨ c = 'E' then (readInt? rest).map (whole, fraction, ·) else none

/-- The double that a text stands for. -/
def readBinary64? (cs : List Char) : Option Binary64 :=
  let (negative, body) := splitSign cs
  let lower := body.map Char.toLower
  if lower = "inf".toList ∨ lower = "infinity".toList then some (.infinity negative)
  else if lower = "nan".toList then some .nan
  else (readParts? body).map fun (whole, fraction, exponent) =>
    .roundDecimal negative (ofDigits 10 (whole ++ fraction)) (exponent - fraction.length)

end LayeredConfig.Decimal
