import LayeredConfig.Toml.Item
import LayeredConfig.Toml.Quoted
import LayeredConfig.Toml.Word

/-!
# Settings documents

A document is a sequence of lines: entries `key = value`, headers of tables, and comments. Loops
over a text are bounded by its length, since every round takes at least one character; arrays and
tables in braces nest less than eighty deep.
-/

namespace LayeredConfig.Toml

/-- A text without the blanks at its start. -/
def skipSpaces (cs : List Char) : List Char := cs.dropWhile isSpace

/-- The text behind the end of a line, which a comment may precede. -/
def afterLine? (cs : List Char) : Option (List Char) :=
  let cs := skipSpaces cs
  let cs := match cs with
    | '#' :: comment => comment.dropWhile isPlain
    | cs => cs
  match cs with
  | [] => some []
  | '\n' :: rest | '\r' :: '\n' :: rest => some rest
  | _ => none

/-- A text without the blanks, line ends and comments at its start. A comment ends with its line. -/
def skipGap (comment : Bool) : List Char → Option (List Char)
  | [] => if comment then none else some []
  | '\n' :: rest | '\r' :: '\n' :: rest => skipGap false rest
  | c :: rest =>
    if comment then (if isPlain c then skipGap true rest else none)
    else if c = '#' then skipGap true rest
    else if isSpace c then skipGap false rest
    else some (c :: rest)

/-! ## Keys -/

/-- Whether a character may stand in a key without quotes. -/
def isKeyChar (c : Char) : Bool := c.isAlphanum || c == '-' || c == '_'

/-- One part of a key. -/
def keyPart? (cs : List Char) : Option (String × List Char) :=
  match cs with
  | '"' :: rest => (basic rest).map fun (key, rest) => (String.ofList key, rest)
  | '\'' :: rest => (literal rest).map fun (key, rest) => (String.ofList key, rest)
  | cs =>
    let key := cs.takeWhile isKeyChar
    if key.isEmpty then none else some (String.ofList key, cs.dropWhile isKeyChar)

/-- A key: parts between dots. The parts before the last come first. -/
def key? : Nat → List Char → Option ((List String × String) × List Char)
  | 0, _ => none
  | fuel + 1, cs => do
    let (part, rest) ← keyPart? (skipSpaces cs)
    match skipSpaces rest with
    | '.' :: rest => do
      let ((path, last), rest) ← key? fuel rest
      pure ((part :: path, last), rest)
    | rest => pure (([], part), rest)

/-- The key at the start of a text. -/
def key (cs : List Char) : Option ((List String × String) × List Char) := key? cs.length cs

/-! ## Values -/

/-- The items of an array behind its opening bracket, `item` reading one of them. -/
def arrayItems (item : List Char → Option (Item × List Char)) :
    Nat → List Char → Option (List Item × List Char)
  | 0, _ => none
  | fuel + 1, cs => do
    match ← skipGap false cs with
    | ']' :: rest => pure ([], rest)
    | cs => do
      let (first, rest) ← item cs
      match ← skipGap false rest with
      | ',' :: rest => do
        let (items, rest) ← arrayItems item fuel rest
        pure (first :: items, rest)
      | ']' :: rest => pure ([first], rest)
      | _ => none

/-- The entries of a table in braces, `item` reading the value of one of them. -/
def braceEntries (item : List Char → Option (Item × List Char)) :
    Nat → Entries → List Char → Option (Entries × List Char)
  | 0, _, _ => none
  | fuel + 1, es, cs => do
    let ((path, last), rest) ← key cs
    match rest with
    | '=' :: rest => do
      let (value, rest) ← item (skipSpaces rest)
      let es ← es.insert path last value
      match skipSpaces rest with
      | ',' :: rest => braceEntries item fuel es rest
      | '\x7d' :: rest => pure (es, rest)
      | _ => none
    | _ => none

/-- How deep arrays and tables in braces may nest. -/
def nestingLimit : Nat := 79

/-- The value at the start of a text, `depth` levels below which may still nest. -/
def value? : Nat → List Char → Option (Item × List Char)
  | depth, cs =>
    match cs with
    | '"' :: _ | '\'' :: _ => (quoted? cs).map fun (s, rest) => (.string (String.ofList s), rest)
    | '[' :: rest =>
      match depth with
      | 0 => none
      | depth + 1 => (arrayItems (value? depth) cs.length rest).map fun (is, rest) =>
        (.array is, rest)
    | '\x7b' :: rest =>
      match depth with
      | 0 => none
      | depth + 1 =>
        match skipSpaces rest with
        | '\x7d' :: rest => some (.table .braces [], rest)
        | _ => (braceEntries (value? depth) cs.length [] rest).map fun (es, rest) =>
          (.table .braces es, rest)
    | _ =>
      let (w, rest) := word cs
      if isValueWord w then some (.word, rest) else none

/-! ## Lines -/

/-- A document that is being read: its entries and the path of the table that is open. -/
structure Reading where
  entries : Entries := []
  table : List String := []

namespace Reading

/-- The document after one line, and the lines that remain. -/
def line (r : Reading) (cs : List Char) : Option (Reading × List Char) :=
  match cs with
  | '#' :: _ => do
    let rest ← afterLine? cs
    pure (r, rest)
  | '\n' :: rest | '\r' :: '\n' :: rest => some (r, rest)
  | '[' :: '[' :: rest => do
    let ((path, last), rest) ← key rest
    let entries ← r.entries.openElement path last
    match rest with
    | ']' :: ']' :: rest => do
      let rest ← afterLine? rest
      pure ({ entries, table := path ++ [last] }, rest)
    | _ => none
  | '[' :: rest => do
    let ((path, last), rest) ← key rest
    let entries ← r.entries.openTable path last
    match rest with
    | ']' :: rest => do
      let rest ← afterLine? rest
      pure ({ entries, table := path ++ [last] }, rest)
    | _ => none
  | cs => do
    let ((path, last), rest) ← key cs
    match rest with
    | '=' :: rest => do
      let (item, rest) ← value? nestingLimit (skipSpaces rest)
      let rest ← afterLine? rest
      let add := fun (_ : TableKind) (es : Entries) => es.insert path last item
      let entries ← Entries.changeAt false add .header r.entries r.table
      pure ({ r with entries }, rest)
    | _ => none

/-- The document after all lines. -/
def lines : Nat → Reading → List Char → Option Entries
  | 0, _, _ => none
  | fuel + 1, r, cs =>
    match skipSpaces cs with
    | [] => some r.entries
    | cs => do
      let (r, rest) ← r.line cs
      lines fuel r rest

end Reading

/-- The entries of a document. A mark of the byte order may stand at its start. -/
def entries? (text : String) : Option Entries :=
  let cs := match text.toList with
    | '\ufeff' :: cs => cs
    | cs => cs
  Reading.lines (cs.length + 1) {} cs

end LayeredConfig.Toml
