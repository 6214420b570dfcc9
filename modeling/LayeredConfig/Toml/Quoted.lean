import LayeredConfig.Decimal.Reading

/-!
# Quoted strings of a settings document

There are four kinds: basic strings in double quotes, with escapes; literal strings in single
quotes, without; and a form of each that runs over several lines, in three quotes. Each reader takes
the text behind the opening quotes and gives the content with the rest behind the closing ones.
-/

namespace LayeredConfig.Toml

/-- Whether a character may stand in a comment or in a literal string. -/
def isPlain (c : Char) : Bool := c == '\t' || (' ' ≤ c && c != '\x7f')

/-- Whether a character is a blank within a line. -/
def isSpace (c : Char) : Bool := c == ' ' || c == '\t'

/-- A read content with one more character in front. -/
def push (c : Char) (r : Option (List Char × List Char)) : Option (List Char × List Char) :=
  r.map fun (content, rest) => (c :: content, rest)

/-- The character with a number in hexadecimal digits, if there is one. -/
def charOf? (digits : List Char) : Option Char :=
  (Decimal.readNat? 16 digits).bind fun n =>
    if n.isValidChar then some (Char.ofNat n) else none

/-- The character that a letter stands for behind a backslash. -/
def escaped? : Char → Option Char
  | 'b' => some '\x08'
  | 't' => some '\t'
  | 'n' => some '\n'
  | 'f' => some '\x0c'
  | 'r' => some '\r'
  | '"' => some '"'
  | '\\' => some '\\'
  | _ => none

/-- The content of a basic string. -/
def basic : List Char → Option (List Char × List Char)
  | [] => none
  | '"' :: rest => some ([], rest)
  | '\\' :: 'u' :: a :: b :: c :: d :: rest =>
    (charOf? [a, b, c, d]).bind fun x => push x (basic rest)
  | '\\' :: 'U' :: a :: b :: c :: d :: e :: f :: g :: h :: rest =>
    (charOf? [a, b, c, d, e, f, g, h]).bind fun x => push x (basic rest)
  | '\\' :: c :: rest => (escaped? c).bind fun x => push x (basic rest)
  | c :: rest => if isPlain c && c != '\\' then push c (basic rest) else none

/-- The content of a literal string. -/
def literal : List Char → Option (List Char × List Char)
  | [] => none
  | '\'' :: rest => some ([], rest)
  | c :: rest => if isPlain c then push c (literal rest) else none

/-- What a backslash at the end of a line has begun. -/
inductive Folding where
  | none
  /-- The line has to end now. -/
  | pending
  /-- Blanks and line ends are dropped. -/
  | dropping
  deriving DecidableEq

/-- Whether a text starts with a blank or with the end of its line. -/
def endsLine : List Char → Bool
  | c :: _ => isSpace c || c == '\n' || c == '\r'
  | [] => false

/-- The content of a basic string over several lines. A backslash at the end of a line drops the
line end and all blanks after it. Two quotes may stand before the closing ones. -/
def basicLines (folding : Folding) : List Char → Option (List Char × List Char)
  | [] => none
  | '\r' :: '\n' :: rest | '\n' :: rest =>
    if folding = .none then push '\n' (basicLines .none rest) else basicLines .dropping rest
  | c :: rest =>
    if isSpace c ∧ folding ≠ .none then basicLines folding rest
    else if folding = .pending then none
    else if c = '\\' ∧ endsLine rest then basicLines .pending rest
    else match c, rest with
      | '"', '"' :: '"' :: '"' :: '"' :: rest => some (['"', '"'], rest)
      | '"', '"' :: '"' :: '"' :: rest => some (['"'], rest)
      | '"', '"' :: '"' :: rest => some ([], rest)
      | '\\', 'u' :: a :: b :: c :: d :: rest =>
        (charOf? [a, b, c, d]).bind fun x => push x (basicLines .none rest)
      | '\\', 'U' :: a :: b :: c :: d :: e :: f :: g :: h :: rest =>
        (charOf? [a, b, c, d, e, f, g, h]).bind fun x => push x (basicLines .none rest)
      | '\\', c :: rest => (escaped? c).bind fun x => push x (basicLines .none rest)
      | c, rest => if isPlain c && c != '\\' then push c (basicLines .none rest) else none

/-- The content of a literal string over several lines. Two quotes may stand before the closing
ones. -/
def literalLines : List Char → Option (List Char × List Char)
  | [] => none
  | '\r' :: '\n' :: rest | '\n' :: rest => push '\n' (literalLines rest)
  | '\'' :: '\'' :: '\'' :: '\'' :: '\'' :: rest => some (['\'', '\''], rest)
  | '\'' :: '\'' :: '\'' :: '\'' :: rest => some (['\''], rest)
  | '\'' :: '\'' :: '\'' :: rest => some ([], rest)
  | c :: rest => if isPlain c then push c (literalLines rest) else none

/-- A text without a line end at its start. -/
def dropLineEnd : List Char → List Char
  | '\r' :: '\n' :: rest | '\n' :: rest => rest
  | cs => cs

/-- The string of any kind at the start of a text. -/
def quoted? : List Char → Option (List Char × List Char)
  | '"' :: '"' :: '"' :: rest => basicLines .none (dropLineEnd rest)
  | '"' :: rest => basic rest
  | '\'' :: '\'' :: '\'' :: rest => literalLines (dropLineEnd rest)
  | '\'' :: rest => literal rest
  | _ => none

end LayeredConfig.Toml
