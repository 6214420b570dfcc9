import LayeredConfig.Yaml.Token.Cursor

/-!
# Scalars

The text of a scalar is folded from lines: between two lines of content a single line end becomes a
space and further ones stay, blanks around it vanish. In literal blocks every line end stays. The
functions below give the text with its characters in reverse while they read.

What surrounds a scalar is told by `Surrounding`: the indentation that its lines have to exceed and
whether it stands inside a flow collection.
-/

namespace LayeredConfig.Yaml

/-- Where a scalar stands. -/
structure Surrounding where
  /-- The column of the enclosing block, `-1` at the top. -/
  indent : Int
  /-- The scalar stands inside a flow collection. -/
  flow : Bool

/-! ## Folding -/

/-- Line ends and blanks read since the last content. -/
structure Pending where
  /-- Blanks on the line of the content, last first. -/
  blanks : List Char := []
  /-- A line ended. -/
  broken : Bool := false
  /-- The number of line ends after the first. -/
  more : Nat := 0

/-- What stands for the pending line ends and blanks, last first. -/
def Pending.fold (p : Pending) : List Char :=
  if p.broken then (if p.more = 0 then [' '] else List.replicate p.more '\n') else p.blanks

/-! ## Quoted scalars -/

/-- The character that an escape stands for, or the number of hexadecimal digits that tell it. -/
def escape? : Char → Option (Char ⊕ Nat)
  | '0' => some (.inl '\x00')
  | 'a' => some (.inl '\x07')
  | 'b' => some (.inl '\x08')
  | 't' | '\t' => some (.inl '\t')
  | 'n' => some (.inl '\n')
  | 'v' => some (.inl '\x0b')
  | 'f' => some (.inl '\x0c')
  | 'r' => some (.inl '\r')
  | 'e' => some (.inl '\x1b')
  | ' ' => some (.inl ' ')
  | '"' => some (.inl '"')
  | '/' => some (.inl '/')
  | '\\' => some (.inl '\\')
  | 'N' => some (.inl '\u0085')
  | '_' => some (.inl '\u00a0')
  | 'L' => some (.inl '\u2028')
  | 'P' => some (.inl '\u2029')
  | 'x' => some (.inr 2)
  | 'u' => some (.inr 4)
  | 'U' => some (.inr 8)
  | _ => none

/-- The value of hexadecimal digits. -/
def hexValue (digits : List Char) : Nat :=
  digits.foldl
    (fun n c =>
      let d := if c.isDigit then c.toNat - '0'.toNat else c.toLower.toNat - 'a'.toNat + 10
      16 * n + d)
    0

/-- The character with a code point. -/
def charOf? (code : Nat) : Option Char :=
  if h : code.isValidChar then some (Char.ofNatAux code h)
  else none

/-- The character of the escape sequence that is next. -/
def Cursor.escapeSequence? (c : Cursor) : Option (Char × Cursor) :=
  match escape? (c.peek 1) with
  | some (.inl x) => some (x, c.skipInk 2)
  | some (.inr count) =>
    let c := c.skipInk 2
    let digits := (List.range count).map fun i => c.peek i
    if digits.all isHex then (charOf? (hexValue digits)).map (·, c.skipInk count) else none
  | none => none

/-- The characters up to the next gap or quote, in front of `text`. The flag tells whether an
escaped line end was met. -/
def Cursor.quotedWord? (single : Bool) : Nat → Cursor → List Char →
    Option (List Char × Bool × Cursor)
  | 0, _, _ => none
  | fuel + 1, c, text =>
    let x := c.peek
    if isGap x then some (text, false, c)
    else if single then
      if x == '\'' then
        if c.peek 1 == '\'' then (c.skipInk 2).quotedWord? single fuel ('\'' :: text)
        else some (text, false, c)
      else c.skipInk.quotedWord? single fuel (x :: text)
    else if x == '"' then some (text, false, c)
    else if x == '\\' then
      if isBreak (c.peek 1) then some (text, true, c.skipInk.skipBreak)
      else match c.escapeSequence? with
        | some (y, c) => c.quotedWord? single fuel (y :: text)
        | none => none
    else c.skipInk.quotedWord? single fuel (x :: text)

/-- The blanks and line ends inside a quoted scalar. `escaped` tells that a line end was read as an
escape: then blanks are indentation, and line ends that follow count in full. -/
def Cursor.quotedGap? (indent : Int) (escaped : Bool) : Nat → Cursor → Pending →
    Option (Pending × Cursor)
  | 0, _, _ => none
  | fuel + 1, c, p =>
    let x := c.peek
    if isBlank x then
      if escaped || p.broken then
        if x == '\t' && (c.column : Int) < indent then none
        else c.skip.quotedGap? indent escaped fuel p
      else c.skip.quotedGap? indent escaped fuel { p with blanks := x :: p.blanks }
    else if isBreak x then
      if escaped || p.broken then c.skipBreak.quotedGap? indent escaped fuel { p with more := p.more + 1 }
      else c.skipBreak.quotedGap? indent escaped fuel { p with blanks := [], broken := true }
    else some (p, c)

/-- What stands for a gap inside a quoted scalar. After an escaped line end nothing is folded. -/
def quotedFold (escaped : Bool) (p : Pending) : List Char :=
  if escaped then List.replicate p.more '\n' else p.fold

/-- The rest of a quoted scalar after `text`, up to its closing quote. -/
def Cursor.quotedRest? (single : Bool) (s : Surrounding) : Nat → Cursor → List Char →
    Option (List Char × Cursor)
  | 0, _, _ => none
  | fuel + 1, c, text =>
    if c.column = 0 ∧ c.atDocumentEdge then none
    else if isEnd c.peek then none
    else if (c.column : Int) < s.indent then none
    else do
      let (text, escaped, c) ← c.quotedWord? single (c.rest.length + 1) text
      if c.peek == (if single then '\'' else '"') then some (text, c)
      else
        let (p, c) ← c.quotedGap? s.indent escaped (c.rest.length + 1) {}
        c.quotedRest? single s fuel (quotedFold escaped p ++ text)

/-- The quoted scalar that is next. Only the end of the line, a comment, or what may follow a node
may stand behind its closing quote. -/
def Cursor.quotedScalar? (single : Bool) (s : Surrounding) (c : Cursor) :
    Option (Token × Cursor) := do
  let start := c.mark
  let (text, c) ← c.skipInk.quotedRest? single s (c.rest.length + 2) []
  let (c, _) ← c.skipInk.skipToLineEnd
  let x := c.peek
  let closed := isBreakOrEnd x
    || s.flow && (x == ',' || x == '}' || x == ']' || x == ':')
    || !s.flow && x == ':' && start.line == c.mark.line
  if closed then
    some (⟨start, .scalar (if single then .singleQuoted else .doubleQuoted)
      (String.ofList text.reverse)⟩, c)
  else none

/-! ## Plain scalars -/

/-- Whether the next character continues a plain scalar. -/
def Cursor.inPlain (s : Surrounding) (c : Cursor) : Bool :=
  let x := c.peek
  if x == ':' && (isGap (c.peek 1) || s.flow && isFlow (c.peek 1)) then false
  else !(s.flow && isFlow x)

/-- The characters of a word of a plain scalar, in front of `text`. -/
def Cursor.plainWord (s : Surrounding) : Nat → Cursor → List Char → List Char × Cursor
  | 0, c, text => (text, c)
  | fuel + 1, c, text =>
    if !isGap c.peek && c.inPlain s then c.skipInk.plainWord s fuel (c.peek :: text) else (text, c)

/-- The blanks and line ends after a word of a plain scalar. A tab may stand in the indentation of
an empty line only. -/
def Cursor.plainGap? (indent : Int) : Nat → Cursor → Pending → Option (Pending × Cursor)
  | 0, _, _ => none
  | fuel + 1, c, p =>
    let x := c.peek
    if isBlank x then
      if !c.fresh then c.skip.plainGap? indent fuel { p with blanks := x :: p.blanks }
      else if (c.column : Int) < indent ∧ x == '\t' then
        match c.skipToLineEnd with
        | some (c, _) => if isBreakOrEnd c.peek then c.plainGap? indent fuel p else none
        | none => none
      else c.skip.plainGap? indent fuel p
    else if isBreak x then
      if c.fresh then c.skipBreak.plainGap? indent fuel { p with more := p.more + 1 }
      else c.skipBreak.plainGap? indent fuel { p with blanks := [], broken := true }
    else some (p, c)

/-- The rest of a plain scalar after `text`, with what is pending since. -/
def Cursor.plainRest? (s : Surrounding) : Nat → Cursor → List Char → Pending →
    Option (List Char × Cursor)
  | 0, _, _, _ => none
  | fuel + 1, c, text, p =>
    if (c.column = 0 ∧ c.atDocumentEdge) ∨ c.peek == '#' then some (text, c)
    else if s.flow && c.peek == '-' && isFlow (c.peek 1) then none
    else
      let (text, c, p) : List Char × Cursor × Pending :=
        if !isGap c.peek && c.inPlain s then
          let (text, c) := c.plainWord s (c.rest.length + 1) (p.fold ++ text)
          (text, c, {})
        else (text, c, p)
      if !(isBlank c.peek || isBreak c.peek) then some (text, c)
      else
        match c.plainGap? (s.indent + 1) (c.rest.length + 1) p with
        | none => none
        | some (p, c) =>
          if !s.flow && (c.column : Int) < s.indent + 1 then some (text, c)
          else c.plainRest? s fuel text p

/-- The plain scalar that is next. -/
def Cursor.plainScalar? (s : Surrounding) (c : Cursor) : Option (Token × Cursor) :=
  if s.flow ∧ (c.column : Int) < s.indent + 1 then none
  else (c.plainRest? s (c.rest.length + 2) [] {}).map fun (text, after) =>
    (⟨c.mark, .scalar .plain (String.ofList text.reverse)⟩, after)

/-! ## Block scalars -/

/-- What becomes of the line ends at the end of a block scalar. -/
inductive Chomping where
  | strip
  | clip
  | keep
  deriving DecidableEq

/-- The chomping indicator of a character. -/
def chomping? : Char → Option Chomping
  | '+' => some .keep
  | '-' => some .strip
  | _ => none

/-- The header of a block scalar after its indicator: chomping, and the indentation in addition to
that of the enclosing block, zero for none. An explicit zero is refused. -/
def Cursor.blockHeader? (c : Cursor) : Option (Chomping × Nat × Cursor) :=
  let digit? := fun (c : Cursor) =>
    if c.peek.isDigit then
      if c.peek == '0' then none else some (c.peek.toNat - '0'.toNat, c.skipInk)
    else some (0, c)
  match chomping? c.peek with
  | some chomping => (digit? c.skipInk).map fun (increment, c) => (chomping, increment, c)
  | none =>
    (digit? c).map fun (increment, after) =>
      match chomping? after.peek with
      | some chomping => (chomping, increment, after.skipInk)
      | none => (.clip, increment, after)

/-- Past spaces before `column` and past empty lines; the number of line ends is added to
`breaks`. -/
def Cursor.skipIndent (column : Nat) : Nat → Cursor → Nat → Nat × Cursor
  | 0, c, breaks => (breaks, c)
  | fuel + 1, c, breaks =>
    let c := c.skip (((c.rest.takeWhile (· == ' ')).length).min (column - c.column))
    if isBreak c.peek then c.skipBreak.skipIndent column fuel (breaks + 1) else (breaks, c)

/-- Past spaces and empty lines; with the number of line ends the greatest column reached. -/
def Cursor.firstIndent : Nat → Cursor → Nat → Nat → Nat × Nat × Cursor
  | 0, c, breaks, widest => (breaks, widest, c)
  | fuel + 1, c, breaks, widest =>
    let c := c.skip (c.rest.takeWhile (· == ' ')).length
    let widest := widest.max c.column
    if isBreak c.peek then c.skipBreak.firstIndent fuel (breaks + 1) widest
    else (breaks, widest, c)

/-- The lines of a block scalar. `broken` tells that a content line ended since `text`, `breaks`
counts the line ends after it, and `wasBlank` whether that line began with a blank. -/
structure BlockLines where
  text : List Char := []
  broken : Bool := false
  breaks : Nat
  wasBlank : Bool := false
  cursor : Cursor

/-- The content lines of a block scalar whose content starts at `column`. -/
def BlockLines.read (literal : Bool) (column : Nat) : Nat → BlockLines → BlockLines
  | 0, b => b
  | fuel + 1, b =>
    let c := b.cursor
    if c.column ≠ column ∨ isEnd c.peek ∨ (column = 0 ∧ c.atMarker '.') then b
    else
      let startsBlank := isBlank c.peek
      let breaks := List.replicate b.breaks '\n'
      let joint :=
        if !literal && b.broken && !b.wasBlank && !startsBlank then
          (if b.breaks = 0 then [' '] else breaks)
        else breaks ++ (if b.broken then ['\n'] else [])
      let (line, c) := c.span fun _ => true
      let text := line.reverse ++ (joint ++ b.text)
      if isEnd c.peek then
        { text, broken := false, breaks := 0, wasBlank := startsBlank, cursor := c }
      else
        let (breaks, c) := c.skipBreak.skipIndent column (c.rest.length + 1) 0
        BlockLines.read literal column fuel
          { text, broken := true, breaks, wasBlank := startsBlank, cursor := c }

/-- The text of a block scalar after its last content line. -/
def BlockLines.chomped (b : BlockLines) (chomping : Chomping) (column : Nat) : List Char :=
  let ended := if b.broken then ['\n'] else []
  let atEnd :=
    if isEnd b.cursor.peek && (column.max 1) ≤ b.cursor.column then ['\n'] else []
  match chomping with
  | .strip => b.text
  | .clip => atEnd ++ (ended ++ b.text)
  | .keep => List.replicate b.breaks '\n' ++ (atEnd ++ (ended ++ b.text))

/-- The literal or folded scalar that is next. -/
def Cursor.blockScalar? (literal : Bool) (indent : Int) (c : Cursor) :
    Option (Token × Cursor) := do
  let start := c.mark
  let style : Style := if literal then .literal else .folded
  let (chomping, increment, c) ← c.skipInk.blockHeader?
  let (c, _) ← c.skipToLineEnd
  if !isBreakOrEnd c.peek then none
  let c := c.skipBreak
  if c.peek == '\t' then none
  let column : Nat :=
    if increment = 0 then 0 else if 0 ≤ indent then indent.toNat + increment else increment
  let (column, breaks, c) : Nat × Nat × Cursor :=
    if column = 0 then
      let (breaks, widest, c) := c.firstIndent (c.rest.length + 1) 0 0
      let column := widest.max (indent + 1).toNat
      (if 0 < indent then column.max 1 else column, breaks, c)
    else
      let (breaks, c) := c.skipIndent column (c.rest.length + 1) 0
      (column, breaks, c)
  if isEnd c.peek then
    let text : List Char :=
      if c.mark.line = start.line then []
      else match chomping with
        | .strip => []
        | .clip => ['\n']
        | .keep => List.replicate (breaks.max 1) '\n'
    return (⟨start, .scalar style (String.ofList text)⟩, c)
  if c.column < column ∧ indent < (c.column : Int) then none
  let content := c.mark
  let b := BlockLines.read literal column (c.rest.length + 1) { breaks, cursor := c }
  some (⟨content, .scalar style (String.ofList (b.chomped chomping column).reverse)⟩, b.cursor)

end LayeredConfig.Yaml
