import LayeredConfig.Text.Blank
import LayeredConfig.Text.Lines
import LayeredConfig.Yaml.Document

/-!
# Comments of a document

The comment of a node are the comment lines directly above the line on which it starts, or above the
dash of the item that it is. Lines of literal and folded scalars are no comments, whatever they look
like. Each line is claimed by one node, the outermost that starts right below it.
-/

namespace LayeredConfig.Yaml

/-- The lines of a text, with those that may belong to block scalars. -/
structure Source where
  lines : Array (List Char)
  blocks : List BlockRange

/-- The lines that nodes have claimed. -/
abbrev Claimed := List Nat

namespace Source

/-- The lines of a text. -/
def ofText (text : String) (blocks : List BlockRange) : Source where
  lines := (Text.splitAt '\n' text.toList).toArray
  blocks

/-- The number of bytes of blanks at the start of a line. -/
def indentOf (line : List Char) : Nat :=
  (String.ofList (line.takeWhile Text.isBlank)).utf8ByteSize

/-- The indentation of the content of a block scalar: that of its first line with content. -/
def blockIndent (s : Source) (r : BlockRange) : Nat :=
  let content := (List.range' (r.first + 1) (r.stop - (r.first + 1))).filterMap (s.lines[·]?)
  match content.find? fun line => !line.all Text.isBlank with
  | some line => indentOf line
  | none => 0

/-- Whether a line belongs to a block scalar: it is among its lines and indented no less than its
content. -/
def isBlockContent (s : Source) (line : Nat) : Bool :=
  s.blocks.any fun r =>
    r.first ≤ line && line < r.stop
      && match s.lines[line]? with
        | some text => s.blockIndent r ≤ indentOf text
        | none => false

/-- The text of a comment line, without the blanks around it, its sign and one space. -/
def commentText? (line : List Char) : Option (List Char) :=
  match Text.trimEnd (Text.trimStart line) with
  | '#' :: ' ' :: body => some body
  | '#' :: body => some body
  | _ => none

/-- The comment lines directly above a line, first to last, as numbers and texts. -/
def commentLines (s : Source) (claimed : Claimed) : Nat → List (Nat × List Char)
  | 0 => []
  | line + 1 =>
    if claimed.contains line || s.isBlockContent line then []
    else match (s.lines[line]?).bind commentText? with
      | some body => s.commentLines claimed line ++ [(line, body)]
      | none => []

/-- The comment directly above a line, and the lines claimed with it. -/
def commentAbove (s : Source) (line : Nat) (claimed : Claimed) : Option String × Claimed :=
  match s.commentLines claimed line with
  | [] => (none, claimed)
  | found =>
    (some ("\n".intercalate (found.map fun (_, body) => String.ofList body)),
      found.map (·.1) ++ claimed)

/-- The character that a line starts with after its blanks. -/
def firstInk? (s : Source) (line : Nat) : Option Char :=
  (s.lines[line]?).bind fun text => (Text.trimStart text).head?

/-- The line above, past comment lines, that starts with the dash of an item. -/
def dashAbove? (s : Source) : Nat → Option Nat
  | 0 => none
  | line + 1 =>
    match s.firstInk? line with
    | some '#' => s.dashAbove? line
    | some '-' => some line
    | _ => none

/-- The comment of an item that starts on a line. The item may start below its dash; its comment is
above the dash. -/
def itemComment (s : Source) (line : Nat) (claimed : Claimed) : Option String × Claimed :=
  if s.firstInk? line = some '-' then s.commentAbove line claimed
  else match s.dashAbove? line with
    | some dash => s.commentAbove dash claimed
    | none => (none, claimed)

end Source

end LayeredConfig.Yaml
