import LayeredConfig.Decimal.Reading

/-!
# Unquoted values of a settings document

Booleans, integers, floats, dates and times. Settings hold none of them, so it only matters whether
a word is one.
-/

namespace LayeredConfig.Toml

open Decimal (isDigit isDigitOf ofDigits splitSign)

/-- Whether a character may stand in an unquoted value. -/
def isWordChar (c : Char) : Bool :=
  c.isAlphanum || c == '+' || c == '-' || c == '_' || c == '.' || c == ':'

/-- Whether a word has digits of a base, single underscores standing only between digits. -/
def areDigits (base : Nat) (cs : List Char) : Bool :=
  (cs.splitOn '_').all fun part => !part.isEmpty && part.all (isDigitOf base)

/-- The number of digits with underscores. -/
def digitsValue (base : Nat) (cs : List Char) : Nat := ofDigits base (cs.filter (· != '_'))

/-- Whether a word is a decimal number without a sign and without leading zeros. -/
def isWhole (cs : List Char) : Bool := areDigits 10 cs && (cs == ['0'] || cs.head? != some '0')

/-- Whether a word is an integer of 64 bits. -/
def isInteger (cs : List Char) : Bool :=
  let inBase := fun (base : Nat) (ds : List Char) =>
    areDigits base ds && digitsValue base ds < Nat.pow 2 63
  match cs with
  | '0' :: 'x' :: ds => inBase 16 ds
  | '0' :: 'o' :: ds => inBase 8 ds
  | '0' :: 'b' :: ds => inBase 2 ds
  | _ =>
    let (negative, ds) := splitSign cs
    isWhole ds && digitsValue 10 ds < Nat.pow 2 63 + (if negative then 1 else 0)

/-- Whether a word is a float. One that is too large is none. -/
def isFloat (cs : List Char) : Bool :=
  let (_, ds) := splitSign cs
  if ds == "inf".toList || ds == "nan".toList then true
  else
    let isMark := fun (c : Char) => c == 'e' || c == 'E'
    let mantissa := ds.takeWhile (!isMark ·)
    let exponent := ds.dropWhile (!isMark ·)
    let whole := mantissa.takeWhile (· != '.')
    let fraction := mantissa.dropWhile (· != '.')
    isWhole whole && !(fraction.isEmpty && exponent.isEmpty)
      && (fraction.isEmpty || areDigits 10 (fraction.drop 1))
      && (exponent.isEmpty || areDigits 10 (splitSign (exponent.drop 1)).2)
      && Decimal.readBinary64? (cs.filter (· != '_')) != some (.infinity false)

/-- The number of two digits. -/
def pair? (a b : Char) : Option Nat :=
  if isDigit a && isDigit b then some (ofDigits 10 [a, b]) else none

/-- Whether two digits are a number within bounds. -/
def isPair (least most : Nat) (a b : Char) : Bool :=
  match pair? a b with
  | some n => least ≤ n && n ≤ most
  | none => false

/-- The number of days of a month. -/
def daysOf (year month : Nat) : Nat :=
  if month = 2 then (if year % 4 = 0 ∧ (year % 100 ≠ 0 ∨ year % 400 = 0) then 29 else 28)
  else if month = 4 ∨ month = 6 ∨ month = 9 ∨ month = 11 then 30
  else 31

/-- Whether a word is a date. -/
def isDate : List Char → Bool
  | [a, b, c, d, '-', e, f, '-', g, h] =>
    [a, b, c, d].all isDigit && isPair 1 12 e f
      && isPair 1 (daysOf (ofDigits 10 [a, b, c, d]) (ofDigits 10 [e, f])) g h
  | _ => false

/-- The rest behind a time of day. -/
def afterTime? : List Char → Option (List Char)
  | a :: b :: ':' :: c :: d :: ':' :: e :: f :: rest =>
    if isPair 0 23 a b && isPair 0 59 c d && isPair 0 60 e f then
      match rest with
      | '.' :: rest =>
        if (rest.takeWhile isDigit).isEmpty then none else some (rest.dropWhile isDigit)
      | rest => some rest
    else none
  | _ => none

/-- Whether a word is the offset of a time, or nothing. -/
def isOffset : List Char → Bool
  | [] | ['Z'] | ['z'] => true
  | [sign, a, b, ':', c, d] => (sign == '+' || sign == '-') && isPair 0 23 a b && isPair 0 59 c d
  | _ => false

/-- Whether a word is a date, a time, or both. -/
def isMoment (cs : List Char) : Bool :=
  isDate cs || afterTime? cs == some []
    || (isDate (cs.take 10) && match cs.drop 10 with
      | mark :: time =>
        (mark == 'T' || mark == 't' || mark == ' ') && (afterTime? time).any isOffset
      | [] => false)

/-- Whether a word is an unquoted value. -/
def isValueWord (cs : List Char) : Bool :=
  cs == "true".toList || cs == "false".toList || isInteger cs || isFloat cs || isMoment cs

/-- The unquoted value at the start of a text, and the rest. A blank may stand between a date and a
time. -/
def word (cs : List Char) : List Char × List Char :=
  let first := cs.takeWhile isWordChar
  match isDate first, cs.dropWhile isWordChar with
  | true, ' ' :: d :: rest =>
    if isDigit d then
      (first ++ ' ' :: (d :: rest).takeWhile isWordChar, (d :: rest).dropWhile isWordChar)
    else (first, ' ' :: d :: rest)
  | _, rest => (first, rest)

end LayeredConfig.Toml
