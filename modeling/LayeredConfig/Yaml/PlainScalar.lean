import LayeredConfig.Value

/-!
# What a plain scalar stands for

A scalar without quotes stands for nothing, a boolean, a number or a string, by its text alone. The
text is read as a document of its own, so marks of a document around it are no part of the value.

Integers are decimal, or hexadecimal, octal or binary after `0x`, `0o` and `0b`. An integer that 64
bits cannot hold is a string as long as 128 bits can; further out a decimal one is a double. Digits
after a leading zero are a string.
-/

namespace LayeredConfig.Yaml.PlainScalar

open Decimal

/-- The texts of nothing. -/
def nullTexts : List String := ["", "~", "null", "Null", "NULL"]

/-- The boolean that a text stands for. -/
def readBoolean? (text : String) : Option Bool :=
  if ["true", "True", "TRUE"].contains text then some true
  else if ["false", "False", "FALSE"].contains text then some false
  else none

/-- Whether a text is more than one digit with a zero in front, after a sign. -/
def isPaddedDigits (cs : List Char) : Bool :=
  match (splitSign cs).2 with
  | '0' :: d :: ds => (d :: ds).all isDigit
  | _ => false

/-- The magnitude that an unsigned text stands for. -/
def readMagnitude? : List Char → Option Nat
  | '0' :: 'x' :: ds => readNat? 16 ds
  | '0' :: 'o' :: ds => readNat? 8 ds
  | '0' :: 'b' :: ds => readNat? 2 ds
  | ds => if isPaddedDigits ds then none else readNat? 10 ds

/-- The integer that a text stands for, whatever its size. -/
def readInteger? (cs : List Char) : Option Int :=
  let (negative, body) := splitSign cs
  (readMagnitude? body).map fun n => if negative then -(n : Int) else n

/-- Whether 128 bits hold an integer. -/
def isWide (i : Int) : Bool := decide (-(Nat.pow 2 127 : Int) ≤ i ∧ i < Nat.pow 2 128)

/-- The double that a text stands for. -/
def readDouble? (cs : List Char) : Option Binary64 :=
  let (negative, body) := splitSign cs
  if [".inf", ".Inf", ".INF"].contains (String.ofList body) then some (.infinity negative)
  else if [".nan", ".NaN", ".NAN"].contains (String.ofList cs) then some .nan
  else if isPaddedDigits cs then none
  else match readParts? body with
    | none => none
    | some (whole, fraction, exponent) =>
      let x := Binary64.roundDecimal negative (ofDigits 10 (whole ++ fraction))
        (exponent - fraction.length)
      if x.isFinite then some x else none

/-- The number that a text stands for. -/
def readNumber? (cs : List Char) : Option Number :=
  match readInteger? cs with
  | some i =>
    if Number.minInt ≤ i ∧ i ≤ Number.maxInt then some (.int i)
    else if isWide i then none
    else (readDouble? cs).map .float
  | none => (readDouble? cs).map .float

/-- Whether a text has a form that some reader takes for no string: such a text is a string only
between quotes. -/
def isAmbiguous (text : String) : Bool :=
  let cs := text.toList
  nullTexts.contains text || (readBoolean? text).isSome || (readInteger? cs).any isWide
    || (readDouble? cs).isSome || isPaddedDigits cs

/-- Whether a character ends a line of a document that is read on its own. -/
def endsLine (c : Char) : Bool :=
  c == '\n' || c == '\r' || c == '\u0085' || c == '\u2028' || c == '\u2029'

/-- Whether a character separates words of a document that is read on its own. -/
def separates (c : Char) : Bool := c == ' ' || c == '\t' || endsLine c

/-- The text without separators at its start and line ends at its end. -/
def trimmed (cs : List Char) : List Char :=
  ((cs.dropWhile separates).reverse.dropWhile endsLine).reverse

/-- The text before marks of the document's end, each on a line of its own. -/
def dropDocumentEnds (cs : List Char) : List Char :=
  let rec go : Nat → List Char → List Char
    | fuel + 1, '.' :: '.' :: '.' :: c :: rest =>
      if endsLine c then go fuel (rest.dropWhile endsLine) else '.' :: '.' :: '.' :: c :: rest
    | _, rest => rest
  (go cs.length cs.reverse).reverse

/-- The text after a mark of a document's start, which a separator or the end follows. -/
def dropDocumentStart : List Char → List Char
  | cs@('-' :: '-' :: '-' :: rest) =>
    let body := rest.dropWhile separates
    if rest.isEmpty || body.length < rest.length then body else cs
  | cs => cs

/-- The text of a scalar without what frames a document: a byte order mark, empty lines, and the
marks of its start and end. -/
def unframed (cs : List Char) : List Char :=
  let cs := match cs with
    | '\uFEFF' :: rest => rest
    | cs => cs
  dropDocumentStart (dropDocumentEnds (trimmed cs))

/-- What a plain scalar stands for; nothing for nothing. -/
def read (text : String) : Option Scalar :=
  let cs := unframed text.toList
  let body := String.ofList cs
  if nullTexts.contains body then none
  else match readBoolean? body with
    | some b => some (.boolean b)
    | none => match readNumber? cs with
      | some n => some (.number n)
      | none => some (.string text)

end LayeredConfig.Yaml.PlainScalar
