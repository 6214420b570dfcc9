import LayeredConfig.Yaml.PlainScalar

/-!
# Writing a string as a scalar

A string is written on one line. It stands as it is where that is allowed; between single quotes if
it would read as something else or holds an indicator; between double quotes with escapes if it
holds what single quotes cannot, which is any character that is not printable. Strings of several
lines are written between double quotes.
-/

namespace LayeredConfig.Yaml.Quoting

/-- Whether a character is written as itself. -/
def isPrintable (c : Char) : Bool :=
  let n := c.toNat
  c == '\n' || (0x20 ≤ n && n ≤ 0x7E) || (0xA0 ≤ n && n != 0xFEFF && n != 0xFFFE && n != 0xFFFF)

/-- Whether a character ends a line. -/
def isLineEnd (c : Char) : Bool :=
  c == '\n' || c == '\r' || c == '\u0085' || c == '\u2028' || c == '\u2029'

/-- Whether a character separates words. -/
def isSeparator (c : Char) : Bool := c == ' ' || c == '\t' || isLineEnd c || c == '\x00'

/-- The characters that a plain scalar cannot start with. -/
def startIndicators : List Char := "#,[]\x7b\x7d&*!|>'\"%@\x60".toList

/-- Whether a text holds an indicator from some character on, which stands after `before`. -/
def hasIndicatorAfter (before : Char) : List Char → Bool
  | [] => false
  | c :: cs =>
    (c == ':' && (cs.head?.all isSeparator)) || (c == '#' && isSeparator before)
      || hasIndicatorAfter c cs

/-- Whether a text would be taken for more than a plain scalar. -/
def hasIndicator : List Char → Bool
  | [] => false
  | c :: cs =>
    let separated := cs.head?.all isSeparator
    startIndicators.contains c || ((c == '?' || c == ':' || c == '-') && separated)
      || ['-', '-', '-'].isPrefixOf (c :: cs) || ['.', '.', '.'].isPrefixOf (c :: cs)
      || hasIndicatorAfter c cs

/-- Whether some character that satisfies `p` stands directly before one that satisfies `q`. -/
def hasPair (p q : Char → Bool) : List Char → Bool
  | a :: b :: cs => (p a && q b) || hasPair p q (b :: cs)
  | _ => false

/-- Whether the first or the last character satisfies `p`. -/
def atEnds (p : Char → Bool) (cs : List Char) : Bool := cs.head?.any p || cs.getLast?.any p

/-- Whether a text may stand between quotes without escapes, as far as its line ends go. -/
def isSpecial (cs : List Char) : Bool :=
  !cs.all isPrintable || hasPair (· == ' ') isLineEnd cs

/-- Whether a text may stand without quotes. -/
def allowsPlain (cs : List Char) : Bool :=
  !atEnds (fun c => c == ' ' || isLineEnd c) cs && !cs.any isLineEnd && !isSpecial cs
    && !hasIndicator cs

/-- Whether a text may stand between single quotes. -/
def allowsSingle (cs : List Char) : Bool :=
  !hasPair isLineEnd (· == ' ') cs && !isSpecial cs

/-- Whether a text may be a literal block. -/
def allowsBlock (cs : List Char) : Bool := cs.getLast? != some ' ' && !isSpecial cs

/-- The upper-case hexadecimal digits of a number, with zeros in front up to a width. -/
def hexDigits (width n : Nat) : List Char :=
  let ds := (Nat.toDigits 16 n).map Char.toUpper
  List.replicate (width - ds.length) '0' ++ ds

/-- The escape of a character between double quotes. -/
def escapeChar (c : Char) : List Char :=
  match c with
  | '\x00' => ['\\', '0']
  | '\x07' => ['\\', 'a']
  | '\x08' => ['\\', 'b']
  | '\t' => ['\\', 't']
  | '\n' => ['\\', 'n']
  | '\x0b' => ['\\', 'v']
  | '\x0c' => ['\\', 'f']
  | '\r' => ['\\', 'r']
  | '\x1b' => ['\\', 'e']
  | '"' => ['\\', '"']
  | '\\' => ['\\', '\\']
  | '\u0085' => ['\\', 'N']
  | '\u00a0' => ['\\', '_']
  | '\u2028' => ['\\', 'L']
  | '\u2029' => ['\\', 'P']
  | c =>
    let n := c.toNat
    if n ≤ 0xFF then '\\' :: 'x' :: hexDigits 2 n
    else if n ≤ 0xFFFF then '\\' :: 'u' :: hexDigits 4 n
    else '\\' :: 'U' :: hexDigits 8 n

/-- A text between double quotes, with every character escaped that is not printable or ends a
line. -/
def doubleQuoted (cs : List Char) : List Char :=
  '"' :: cs.flatMap (fun c =>
    if isPrintable c && !isLineEnd c && c != '"' && c != '\\' then [c] else escapeChar c) ++ ['"']

/-- A text as it stands between single quotes. What follows a line separator is indented by two
blanks; `broken` tells that one was the last character. -/
def singleBody (broken : Bool) : List Char → List Char
  | [] => if broken then [' ', ' '] else []
  | c :: cs =>
    if isLineEnd c then c :: singleBody true cs
    else (if broken then [' ', ' '] else []) ++ (if c = '\'' then ['\'', '\''] else [c])
      ++ singleBody false cs

/-- A text between single quotes. -/
def singleQuoted (cs : List Char) : List Char := '\'' :: singleBody false cs ++ ['\'']

/-- Whether a character has neither a picture nor a meaning as a blank. -/
def isControl (c : Char) : Bool :=
  c.toNat < 0x20 || (0x7F ≤ c.toNat && c.toNat ≤ 0x9F)

/-- A text of several lines between double quotes. -/
def linesQuoted (cs : List Char) : List Char :=
  let four := fun (n : Nat) =>
    let ds := Nat.toDigits 16 n
    List.replicate (4 - ds.length) '0' ++ ds
  '"' :: cs.flatMap (fun c =>
    match c with
    | '"' => ['\\', '"']
    | '\\' => ['\\', '\\']
    | '\n' => ['\\', 'n']
    | '\r' => ['\\', 'r']
    | '\t' => ['\\', 't']
    | c => if isControl c then '\\' :: 'u' :: four c.toNat else [c]) ++ ['"']

/-- A string as a scalar on one line. -/
def scalar (s : String) : String :=
  let cs := s.toList
  String.ofList <|
    if cs.contains '\n' then
      if !allowsBlock cs then doubleQuoted cs
      else if cs.all (· == '\n') then "|2+".toList
      else linesQuoted cs
    else if !PlainScalar.isAmbiguous s && allowsPlain cs then cs
    else if allowsSingle cs then singleQuoted cs
    else doubleQuoted cs

end LayeredConfig.Yaml.Quoting
