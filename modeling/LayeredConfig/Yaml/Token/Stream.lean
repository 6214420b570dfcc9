import LayeredConfig.Yaml.Token.Scalar

/-!
# The tokens of a text

A `Lexer` is a cursor with the tokens that wait behind it. They wait because the indicator that makes
a node a key may stand after the node: as long as the first waiting token may turn out to begin a
key, more of the text is read, and a key token is put before it once the indicator is met. All other
tokens are released in the order of the text.

Block collections have no closing indicator. They end where a line is indented less, so the lexer
keeps the columns of the open blocks. An indent that only raises the bar for what may follow, without
a block of its own, is kept among them and marked.
-/

namespace LayeredConfig.Yaml

/-- A place where a key may have begun. -/
structure KeyPlace where
  possible : Bool := false
  /-- A block mapping has nothing but keys at this column, so the indicator has to come. -/
  required : Bool := false
  /-- The number of tokens before the key's first. -/
  number : Nat := 0
  mark : Mark := {}

/-- An enclosing column, with whether the block at the current one has an end token. -/
structure Indent where
  outer : Int
  block : Bool

/-- The state of cutting a text into tokens. -/
structure Lexer where
  cursor : Cursor
  /-- The tokens that wait, first to be released first. -/
  waiting : List Token := []
  /-- The number of tokens released. -/
  released : Nat := 0
  /-- Whether a key may begin here. -/
  keyAllowed : Bool := true
  /-- A place for each open flow collection and one for the block around them, innermost first. -/
  places : List KeyPlace := [{}]
  /-- The column of the current block, `-1` at the top. -/
  indent : Int := -1
  indents : List Indent := []
  /-- The number of open flow collections. -/
  flow : Nat := 0
  /-- Where a value indicator needs no blank after it, because a quoted key or a flow collection
  ends there. -/
  adjacent : Nat := 0
  /-- A flow mapping has begun, so that keys need no mapping of their own. -/
  mappingOpen : Bool := false
  /-- A mapping of a single pair has begun inside a flow sequence. -/
  pairOpen : Bool := false
  ended : Bool := false

namespace Lexer

/-- A token added to those that wait. -/
def push (l : Lexer) (kind : TokenKind) (mark : Mark) : Lexer :=
  { l with waiting := l.waiting ++ [⟨mark, kind⟩] }

/-- A token put before the waiting token with a number. -/
def insert (l : Lexer) (number : Nat) (kind : TokenKind) (mark : Mark) : Lexer :=
  let place := number - l.released
  { l with waiting := l.waiting.take place ++ ⟨mark, kind⟩ :: l.waiting.drop place }

/-- The place of the innermost collection. -/
def place (l : Lexer) : KeyPlace := l.places.headD {}

/-- The lexer with another place for the innermost collection. -/
def setPlace (l : Lexer) (p : KeyPlace) : Lexer :=
  { l with places := p :: l.places.drop 1 }

/-- The mark of the next character. -/
def mark (l : Lexer) : Mark := l.cursor.mark

/-- The column of the next character. -/
def column (l : Lexer) : Int := l.cursor.column

/-- Whether the next character is inside a flow collection. -/
def inFlow (l : Lexer) : Bool := l.flow != 0

/-- What surrounds a scalar that begins here. -/
def surrounding (l : Lexer) : Surrounding := { indent := l.indent, flow := l.inFlow }

/-! ## Keys -/

/-- Remember that a key may begin here, if one may. -/
def saveKey (l : Lexer) : Lexer :=
  if l.keyAllowed then
    l.setPlace
      { possible := true
        required := !l.inFlow && l.indent == l.column && (l.indents.head?.any (·.block))
        number := l.released + l.waiting.length
        mark := l.mark }
  else l

/-- Forget the place of the innermost collection, unless a key has to begin there. -/
def dropKey (l : Lexer) : Option Lexer :=
  if l.place.possible && l.place.required then none
  else some (l.setPlace { l.place with possible := false })

/-- Forget the places that are too far back: outside flow collections a key stands on one line and
has at most 1024 characters. -/
def dropStaleKeys (l : Lexer) : Option Lexer :=
  let stale := fun (p : KeyPlace) =>
    p.possible && !l.inFlow && (p.mark.line < l.mark.line || p.mark.index + 1024 < l.mark.index)
  if l.places.any fun p => stale p && p.required then none
  else some { l with places := l.places.map fun p => if stale p then { p with possible := false } else p }

/-! ## Indentation -/

/-- Drop the innermost indents that have no block. -/
def dropBareIndents : List Indent → Int → List Indent × Int
  | [], indent => ([], indent)
  | i :: is, indent => if i.block then (i :: is, indent) else dropBareIndents is i.outer

/-- Drop the innermost indents that have no block. -/
def unrollBare (l : Lexer) : Lexer :=
  let (indents, indent) := dropBareIndents l.indents l.indent
  { l with indents, indent }

/-- Open a block at a column, if it is further in than the current one. Its first token goes before
the token with the given number, or after all. -/
def roll (l : Lexer) (column : Int) (number : Option Nat) (kind : TokenKind) (mark : Mark) :
    Lexer :=
  if l.inFlow then l
  else
    let l := match l.indents with
      | i :: is => if l.indent ≤ column ∧ !i.block then { l with indent := i.outer, indents := is } else l
      | [] => l
    if l.indent < column then
      let l := { l with indents := ⟨l.indent, true⟩ :: l.indents, indent := column }
      match number with
      | some number => l.insert number kind mark
      | none => l.push kind mark
    else l

/-- The blocks further in than a column, closed one after the other. -/
def unrollFrom (column : Int) (mark : Mark) : List Indent → Int → List Token →
    List Indent × Int × List Token
  | [], indent, ends => ([], indent, ends)
  | i :: is, indent, ends =>
    if column < indent then
      unrollFrom column mark is i.outer (if i.block then ends ++ [⟨mark, .blockEnd⟩] else ends)
    else (i :: is, indent, ends)

/-- Close the blocks further in than a column. -/
def unroll (l : Lexer) (column : Int) : Lexer :=
  if l.inFlow then l
  else
    let (indents, indent, ends) := unrollFrom column l.mark l.indents l.indent []
    { l with indents, indent, waiting := l.waiting ++ ends }

/-- Ask what follows to be indented further than the current block. -/
def rollBare (l : Lexer) : Lexer :=
  if !l.inFlow && (l.indents.head?.any (·.block)) then
    { l with indents := ⟨l.indent, false⟩ :: l.indents, indent := l.indent + 1 }
  else l

/-! ## Blanks between tokens -/

/-- Past blanks, line ends and comments. After a line end outside flow collections a key may begin.
A tab inside the indentation of a block is refused, unless the line is empty. -/
def skipBlanks? : Nat → Lexer → Option Lexer
  | 0, l => some l
  | fuel + 1, l =>
    let c := l.cursor
    let x := c.peek
    if x == '\t' && !l.indents.isEmpty && c.fresh && l.column < l.indent then
      match c.skipToLineEnd with
      | some (c, _) => if isBreakOrEnd c.peek then skipBlanks? fuel { l with cursor := c } else none
      | none => none
    else if isBlank x then skipBlanks? fuel { l with cursor := c.skip }
    else if isBreak x then
      skipBlanks? fuel { l with cursor := c.skipBreak, keyAllowed := l.keyAllowed || !l.inFlow }
    else if x == '#' then skipBlanks? fuel { l with cursor := c.skipLine }
    else some l

/-- Past spaces, line ends and comments. The flag tells whether there was a space or line end. -/
def skipSpaces : Nat → Lexer → Bool → Lexer × Bool
  | 0, l, found => (l, found)
  | fuel + 1, l, found =>
    let c := l.cursor
    let x := c.peek
    if x == ' ' then skipSpaces fuel { l with cursor := c.skip } true
    else if isBreak x then
      skipSpaces fuel { l with cursor := c.skipBreak, keyAllowed := l.keyAllowed || !l.inFlow } true
    else if x == '#' then skipSpaces fuel { l with cursor := c.skipLine } found
    else (l, found)

/-- Past the blanks on this line and a comment after them. -/
def skipToLineEnd (l : Lexer) (tabs : Bool := true) : Option (Lexer × Cursor.Blanks) :=
  (l.cursor.skipToLineEnd tabs).map fun (cursor, found) => ({ l with cursor }, found)

/-- Past that many characters. -/
def skipInk (l : Lexer) (count : Nat := 1) : Lexer :=
  { l with cursor := l.cursor.skipInk count }

/-- A number of steps that no pass over the rest of the text exceeds. -/
def fuel (l : Lexer) : Nat := l.cursor.rest.length + 2

/-! ## The ends of the text and of documents -/

/-- The end of the text: all blocks end. -/
def fetchStreamEnd (l : Lexer) : Option Lexer := do
  let m := l.mark
  let m : Mark := if m.column = 0 then m else { m with line := m.line + 1, column := 0 }
  let l : Lexer := { l with cursor := { l.cursor with mark := m } }
  if l.places.any fun p => p.possible && p.required then none
  let l : Lexer := { l with places := l.places.map fun p : KeyPlace => { p with possible := false } }
  let l ← (l.unroll (-1)).dropKey
  some ({ l with keyAllowed := false, ended := true }.push .streamEnd l.mark)

/-- A mark between documents, three characters long. -/
def fetchDocumentMark (l : Lexer) (kind : TokenKind) : Option Lexer := do
  let l ← (l.unroll (-1)).dropKey
  some ({ l with keyAllowed := false }.push kind l.mark |>.skipInk 3)

/-- A version number: one to nine digits. -/
def skipVersionNumber (l : Lexer) : Option Lexer :=
  let (digits, c) := l.cursor.span Char.isDigit
  if digits.isEmpty ∨ 9 < digits.length then none else some { l with cursor := c }

/-- Past the characters of this line that satisfy `p`. -/
def skipWhile (l : Lexer) (p : Char → Bool) : Lexer :=
  let (word, c) := l.cursor.span p
  { l with cursor := { c with fresh := c.fresh && word.isEmpty } }

/-- The number of bytes that the first byte of an encoded character announces. -/
def encodedLength? (byte : Nat) : Option Nat :=
  if byte < 0x80 then some 1
  else if 0xC0 ≤ byte ∧ byte < 0xE0 then some 2
  else if 0xE0 ≤ byte ∧ byte < 0xF0 then some 3
  else if 0xF0 ≤ byte ∧ byte < 0xF8 then some 4
  else none

/-- One escaped byte of a tag's address. -/
def escapedByte? (c : Cursor) : Option Nat :=
  if c.peek == '%' && isHex (c.peek 1) && isHex (c.peek 2) then some (hexValue [c.peek 1, c.peek 2])
  else none

/-- Past the escaped bytes of one character. The bytes, taken as the digits of a number, have to be
a code point. -/
def skipUriEscape (c : Cursor) : Option Cursor := do
  let first ← escapedByte? c
  let count ← encodedLength? first
  let rec more : Nat → Nat → Cursor → Option (Nat × Cursor)
    | 0, code, c => some (code, c)
    | n + 1, code, c => do
      let byte ← escapedByte? c
      if byte / 64 ≠ 2 then none
      more n (256 * code + byte) (c.skipInk 3)
  let (code, c) ← more (count - 1) first (c.skipInk 3)
  let _ ← charOf? code
  some c

/-- Past the characters of an address that satisfy `p`; the number of characters it has. -/
def skipUri (p : Char → Bool) : Nat → Cursor → Nat → Option (Nat × Cursor)
  | 0, c, count => some (count, c)
  | fuel + 1, c, count =>
    if p c.peek then
      if c.peek == '%' then
        match skipUriEscape c with
        | some c => skipUri p fuel c (count + 1)
        | none => none
      else skipUri p fuel c.skipInk (count + 1)
    else some (count, c)

/-- The handle of a tag: an exclamation mark, a name, and another mark if there is one. -/
def tagHandle? (directive : Bool) (c : Cursor) : Option (String × Cursor) :=
  if c.peek == '!' then
    let (name, c) := c.skipInk.span isNameChar
    if c.peek == '!' then some (String.ofList ('!' :: name ++ ['!']), c.skipInk)
    else if directive && !name.isEmpty then none
    else some (String.ofList ('!' :: name), c)
  else none

/-- The value of a tag directive: a handle and an address. -/
def tagDirective? (l : Lexer) : Option (TokenKind × Lexer) := do
  let l := l.skipWhile isBlank
  let (handle, c) ← tagHandle? true l.cursor
  let l := { l with cursor := c }.skipWhile isBlank
  let c := l.cursor
  let c ←
    if c.peek == '!' then some c.skipInk
    else if !isTagChar c.peek then none
    else if c.peek == '%' then skipUriEscape c
    else some c.skipInk
  let (_, c) ← skipUri isUriChar (c.rest.length + 1) c 0
  if isGap c.peek then some (.tagDirective handle, { l with cursor := c }) else none

/-- A directive, which takes a line of its own. Unknown directives are read over. -/
def fetchDirective (l : Lexer) : Option Lexer := do
  let l ← (l.unroll (-1)).dropKey
  let l := { l with keyAllowed := false }
  let start := l.mark
  let (name, c) := l.skipInk.cursor.span isNameChar
  if name.isEmpty || !isGap c.peek then none
  let l := { l with cursor := { c with fresh := false } }
  let (kind, l) ←
    if name = "YAML".toList then do
      let l ← (l.skipWhile isBlank).skipVersionNumber
      if l.cursor.peek != '.' then none
      let l ← l.skipInk.skipVersionNumber
      some (TokenKind.versionDirective, l)
    else if name = "TAG".toList then l.tagDirective?
    else some (.tagDirective "", { l with cursor := l.cursor.skipLine })
  let (l, _) ← l.skipToLineEnd
  if isBreakOrEnd l.cursor.peek then
    some ({ l with cursor := l.cursor.skipBreak }.push kind start)
  else none

/-! ## Anchors, aliases and tags -/

/-- An anchor or an alias. -/
def fetchAnchor (l : Lexer) (kind : String → TokenKind) : Option Lexer :=
  let l := { l.saveKey with keyAllowed := false }
  let start := l.mark
  let (name, c) := l.skipInk.cursor.span isAnchorChar
  if name.isEmpty then none
  else some ({ l with cursor := c }.push (kind (String.ofList name)) start)

/-- The handle of the tag that is next, and the cursor past the tag. A tag without a name has no
handle. -/
def scanTag? (c : Cursor) : Option (String × Cursor) :=
  if c.peek 1 == '<' then do
    let c := c.skipInk 2
    let (_, c) ← skipUri isUriChar (c.rest.length + 1) c 0
    if c.peek == '>' then some ("", c.skipInk) else none
  else do
    let (handle, c) ← tagHandle? false c
    let named := 2 ≤ handle.length && handle.endsWith "!"
    let (count, c) ← skipUri isTagChar (c.rest.length + 1) c 0
    if named then (if count = 0 then none else some (handle, c))
    else some (if handle.length = 1 ∧ count = 0 then "" else "!", c)

/-- A tag. -/
def fetchTag (l : Lexer) : Option Lexer := do
  let l := { l.saveKey with keyAllowed := false }
  let start := l.mark
  let (handle, c) ← scanTag? l.cursor
  if isGap c.peek || l.inFlow && isFlow c.peek then
    some ({ l with cursor := { c with fresh := false } }.push (.tag handle) start)
  else none

/-! ## Flow collections -/

/-- The greatest number of flow collections inside each other. -/
def maxFlow : Nat := 255

/-- The start of a flow collection. -/
def fetchFlowStart (l : Lexer) (kind : TokenKind) : Option Lexer := do
  let l := l.saveKey.rollBare
  if l.flow = maxFlow then none
  let l := { l with flow := l.flow + 1, places := {} :: l.places, keyAllowed := true }
  let start := l.mark
  let opens : Bool := kind = TokenKind.flowMappingStart
  let l := { l with mappingOpen := l.mappingOpen || opens }
  let (l, _) ← l.skipInk.skipToLineEnd
  some (l.push kind start)

/-- The end of a mapping of a single pair, if one is open. -/
def closePair (l : Lexer) : Lexer :=
  if l.pairOpen then { l with pairOpen := false, mappingOpen := false }.push .flowMappingEnd l.mark
  else l

/-- The end of a flow collection. -/
def fetchFlowEnd (l : Lexer) (kind : TokenKind) : Option Lexer := do
  let l ← l.dropKey
  let l := if l.inFlow then { l with flow := l.flow - 1, places := l.places.drop 1 } else l
  let l := { l with keyAllowed := false }.closePair
  let start := l.mark
  let (l, _) ← l.skipInk.skipToLineEnd
  let l := if l.inFlow then { l with adjacent := l.mark.index } else l
  some (l.push kind start)

/-- The end of an entry of a flow collection. -/
def fetchFlowEntry (l : Lexer) : Option Lexer := do
  let l ← l.dropKey
  let l := { l with keyAllowed := true }.closePair
  let start := l.mark
  let (l, _) ← l.skipInk.skipToLineEnd
  some (l.push .flowEntry start)

/-! ## Block collections, keys and values -/

/-- Whether the last waiting token is an anchor or a tag at the start of a line. -/
def anchorAtLineStart (l : Lexer) : Bool :=
  match l.waiting.getLast? with
  | some ⟨m, .anchor _⟩ | some ⟨m, .tag _⟩ => m.column == 0
  | _ => false

/-- An entry of a block sequence. -/
def fetchBlockEntry (l : Lexer) : Option Lexer := do
  if l.inFlow || !l.keyAllowed then none
  if l.anchorAtLineStart && l.column == 0 && -1 < l.indent then none
  let start := l.mark
  let l := l.skipInk.roll start.column none .blockSequenceStart start
  let (l, found) ← l.skipToLineEnd
  if found.tab && l.cursor.peek == '-' && isGap (l.cursor.peek 1) then none
  let (l, _) ← l.skipToLineEnd false
  let l := if isBreak l.cursor.peek || isFlow l.cursor.peek then l.rollBare else l
  let l ← l.dropKey
  some ({ l with keyAllowed := true }.push .blockEntry l.mark)

/-- The indicator of a key that is no scalar on one line. -/
def fetchKey (l : Lexer) : Option Lexer := do
  let start := l.mark
  if !l.inFlow && !l.keyAllowed then none
  let l :=
    if l.inFlow then { l with mappingOpen := true }
    else l.roll start.column none .blockMappingStart start
  let l ← l.dropKey
  let l := { l with keyAllowed := !l.inFlow }.skipInk
  let (l, found) := l.skipSpaces l.fuel false
  if !found || l.cursor.peek == '\t' then none
  some (l.push .key start)

/-- The indicator of a value. What stands before it becomes a key if it may be one. -/
def fetchValue (l : Lexer) : Option Lexer := do
  let place := l.place
  let start := l.mark
  let l := { l with pairOpen := l.inFlow && !l.mappingOpen }.skipInk
  let l ←
    if l.cursor.peek == '\t' then do
      let (l, found) ← l.skipToLineEnd
      if !found.space && (l.cursor.peek == '-' || isNameChar l.cursor.peek) then none
      some l
    else some l
  let l ←
    if place.possible then do
      let l := l.insert place.number .key place.mark
      if l.pairOpen && place.mark.line < start.line then none
      let l := if l.pairOpen then l.insert place.number .flowMappingStart l.mark else l
      let l := (l.roll place.mark.column (some place.number) .blockMappingStart start).rollBare
      some { l.setPlace { l.place with possible := false } with keyAllowed := false }
    else do
      let l := if l.pairOpen then l.push .flowMappingStart l.mark else l
      if !l.inFlow && !l.keyAllowed then none
      let l := if l.inFlow then l else l.roll start.column none .blockMappingStart start
      let l := l.rollBare
      some { l with keyAllowed := !l.inFlow }
  some (l.push .value start)

/-! ## Scalars -/

/-- A quoted scalar. -/
def fetchQuoted (l : Lexer) (single : Bool) : Option Lexer := do
  let l := { l.saveKey with keyAllowed := false }
  let (token, cursor) ← l.cursor.quotedScalar? single l.surrounding
  let l := { l with cursor }
  let l ← skipBlanks? l.fuel l
  some ({ l with adjacent := l.mark.index }.push token.kind token.mark)

/-- A plain scalar. -/
def fetchPlain (l : Lexer) : Option Lexer := do
  let l := { l.saveKey with keyAllowed := false }.unrollBare
  let (token, cursor) ← l.cursor.plainScalar? l.surrounding
  some ({ l with cursor, keyAllowed := l.keyAllowed || cursor.fresh }.push token.kind token.mark)

/-- A literal or folded scalar. -/
def fetchBlockScalar (l : Lexer) (literal : Bool) : Option Lexer := do
  let l := { l.saveKey with keyAllowed := true }.unrollBare
  let (token, cursor) ← l.cursor.blockScalar? literal l.indent
  some ({ l with cursor }.push token.kind token.mark)

/-! ## All tokens -/

/-- Whether a colon at the cursor is a value indicator. -/
def atValue (l : Lexer) : Bool :=
  isGap (l.cursor.peek 1)
    || l.inFlow && (isFlow (l.cursor.peek 1) || l.mark.index == l.adjacent)

/-- The token that begins at the cursor, at a character that is no blank. -/
def fetchAt (l : Lexer) : Option Lexer :=
  let x := l.cursor.peek
  let gap := isGap (l.cursor.peek 1)
  if x == '[' then l.fetchFlowStart .flowSequenceStart
  else if x == '{' then l.fetchFlowStart .flowMappingStart
  else if x == ']' then l.fetchFlowEnd .flowSequenceEnd
  else if x == '}' then l.fetchFlowEnd .flowMappingEnd
  else if x == ',' then l.fetchFlowEntry
  else if x == '-' && gap then l.fetchBlockEntry
  else if x == '?' && gap then l.fetchKey
  else if x == ':' && l.atValue then l.fetchValue
  else if x == '*' then l.fetchAnchor .alias
  else if x == '&' then l.fetchAnchor .anchor
  else if x == '!' then l.fetchTag
  else if x == '|' && !l.inFlow then l.fetchBlockScalar true
  else if x == '>' && !l.inFlow then l.fetchBlockScalar false
  else if x == '\'' then l.fetchQuoted true
  else if x == '"' then l.fetchQuoted false
  else if x == '%' || x == '@' || x == '\x60' then none
  else l.fetchPlain

/-- The next tokens of the text. -/
def fetch (l : Lexer) : Option Lexer := do
  let l ← skipBlanks? l.fuel l
  let l ← l.dropStaleKeys
  let l := l.unroll l.column
  if isEnd l.cursor.peek then l.fetchStreamEnd
  else if l.column = 0 ∧ l.cursor.peek = '%' then l.fetchDirective
  else if l.column = 0 ∧ l.cursor.atMarker '-' then l.fetchDocumentMark .documentStart
  else if l.column = 0 ∧ l.cursor.atMarker '.' then do
    let l ← l.fetchDocumentMark .documentEnd
    let (l, _) ← l.skipToLineEnd
    if isBreakOrEnd l.cursor.peek then some l else none
  else if l.column < l.indent then none
  else l.fetchAt

/-- Whether the first waiting token may still turn out to begin a key. -/
def undecided (l : Lexer) : Bool :=
  l.places.any fun p => p.possible && p.number == l.released

/-- The waiting tokens that can be released, and the lexer without them. -/
def release (l : Lexer) : List Token × Lexer :=
  let rec go : List Token → Nat → List Token × List Token × Nat
    | [], released => ([], [], released)
    | t :: ts, released =>
      if { l with released }.undecided then ([], t :: ts, released)
      else
        let (out, kept, released) := go ts (released + 1)
        (t :: out, kept, released)
  let (out, waiting, released) := go l.waiting l.released
  (out, { l with waiting, released })

/-- The tokens of the rest of the text, up to its end or to where it is no document. -/
def tokens : Nat → Lexer → List Token
  | 0, _ => []
  | fuel + 1, l =>
    match l.dropStaleKeys with
    | none => []
    | some l =>
      let (out, l) := l.release
      if l.ended then out
      else match l.fetch with
        | none => out
        | some l => out ++ tokens fuel l

end Lexer

/-- The tokens of a text, up to its end or to where it is no document: only in the first case the
last token is the end of the stream. -/
def tokensOf (text : String) : List Token :=
  let cs := text.toList
  Lexer.tokens (cs.length + 4)
    ({ cursor := { rest := cs } : Lexer }.push .streamStart {})

end LayeredConfig.Yaml
