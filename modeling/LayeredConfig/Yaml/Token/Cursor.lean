import LayeredConfig.Yaml.Token

/-!
# Reading a document character by character

A `Cursor` is the rest of a text with the mark of its first character. The end of the text shows as
the character zero, and so does a character zero in the text, which therefore ends it. Line ends are
line feeds, carriage returns, and the pair of both; blanks are spaces and tabs.
-/

namespace LayeredConfig.Yaml

/-- Whether a character ends the text. -/
def isEnd (c : Char) : Bool := c == '\x00'

/-- Whether a character ends a line. -/
def isBreak (c : Char) : Bool := c == '\n' || c == '\r'

/-- Whether a character is a space or a tab. -/
def isBlank (c : Char) : Bool := c == ' ' || c == '\t'

/-- Whether a character ends a line or the text. -/
def isBreakOrEnd (c : Char) : Bool := isBreak c || isEnd c

/-- Whether a character is no part of a word. -/
def isGap (c : Char) : Bool := isBlank c || isBreakOrEnd c

/-- Whether a character separates or encloses the parts of a flow collection. -/
def isFlow (c : Char) : Bool := c == ',' || c == '[' || c == ']' || c == '{' || c == '}'

/-- Whether a character may stand in a directive's name. -/
def isNameChar (c : Char) : Bool := c.isAlphanum || c == '_' || c == '-'

/-- Whether a character may stand in the name of an anchor. -/
def isAnchorChar (c : Char) : Bool := !isGap c && !isFlow c && c != '\uFEFF'

/-- Whether a character may stand in the address of a tag. -/
def isUriChar (c : Char) : Bool :=
  c.isAlphanum || c == '-' || "#;/?:@&=+$,_.!~*'()[]%".toList.contains c

/-- Whether a character may stand in the short form of a tag. -/
def isTagChar (c : Char) : Bool := isUriChar c && !isFlow c && c != '!'

/-- Whether a character is a hexadecimal digit. -/
def isHex (c : Char) : Bool :=
  c.isDigit || ('a' ≤ c && c ≤ 'f') || ('A' ≤ c && c ≤ 'F')

/-- The rest of a text, with the mark of its first character. -/
structure Cursor where
  rest : List Char
  mark : Mark := {}
  /-- Nothing but blanks was read on this line. -/
  fresh : Bool := true
  deriving Repr

namespace Cursor

/-- The character that many places ahead. -/
def peek (c : Cursor) (ahead : Nat := 0) : Char := c.rest.getD ahead '\x00'

/-- The column of the next character. -/
def column (c : Cursor) : Nat := c.mark.column

/-- Past that many characters of this line. -/
def skip (c : Cursor) (count : Nat := 1) : Cursor :=
  { c with
    rest := c.rest.drop count
    mark := { c.mark with index := c.mark.index + count, column := c.mark.column + count } }

/-- Past that many characters of this line, not all of them blanks. -/
def skipInk (c : Cursor) (count : Nat := 1) : Cursor :=
  { c.skip count with fresh := false }

/-- Past the line end that is next, if one is. -/
def skipBreak (c : Cursor) : Cursor :=
  let next := fun (c : Cursor) =>
    { rest := c.rest.drop 1
      mark := { index := c.mark.index + 1, line := c.mark.line + 1, column := 0 }
      fresh := true : Cursor }
  match c.rest with
  | '\r' :: '\n' :: _ => next c.skip
  | '\n' :: _ | '\r' :: _ => next c
  | _ => c

/-- The characters of this line that satisfy `p`, and the cursor past them. -/
def span (c : Cursor) (p : Char → Bool) : List Char × Cursor :=
  let word := c.rest.takeWhile fun x => p x && !isBreakOrEnd x
  (word, c.skip word.length)

/-- Past the rest of this line. -/
def skipLine (c : Cursor) : Cursor :=
  let (line, after) := c.span fun _ => true
  if line.isEmpty then after else { after with fresh := false }

/-- Whether three equal characters that mark the edge of a document are next. -/
def atMarker (c : Cursor) (x : Char) : Bool :=
  c.peek 0 == x && c.peek 1 == x && c.peek 2 == x && isGap (c.peek 3)

/-- Whether the edge of a document is next. -/
def atDocumentEdge (c : Cursor) : Bool := c.atMarker '-' || c.atMarker '.'

/-- What blanks were skipped: whether a tab, whether a space. -/
structure Blanks where
  tab : Bool
  space : Bool

/-- Past the blanks on this line and a comment after them. A comment needs a blank before it. -/
def skipToLineEnd (c : Cursor) (tabs : Bool := true) : Option (Cursor × Blanks) :=
  let (blanks, after) := c.span fun x => x == ' ' || tabs && x == '\t'
  let found : Blanks := { tab := blanks.contains '\t', space := blanks.contains ' ' }
  if after.peek == '#' then
    if blanks.isEmpty then none else some (after.skipLine, found)
  else some (after, found)

end Cursor

end LayeredConfig.Yaml
