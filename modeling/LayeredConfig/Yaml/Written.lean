import LayeredConfig.Configuration
import LayeredConfig.Text.Lines
import LayeredConfig.Yaml.Quoting

/-!
# Writing trees as documents

Objects become block mappings and arrays block sequences, with anchors, aliases and comments. A
document reads from top to bottom, so an alias has to follow its anchor: with `validate` set, an
alias without an anchor before it is an error, and so are markers that no document can hold. Without
it such markers are left out.
-/

namespace LayeredConfig.Yaml

/-- What one level of a document is indented by. -/
def indentation : String := "  "

/-- What stands behind a key or a dash: text on the same line, or lines below an optional header. -/
inductive Written where
  | inline (text : String)
  | block (header : String) (lines : List String)
  deriving Repr

/-- The text of a scalar value; a missing one is written as null. -/
def scalarText : Option Scalar → String
  | none => "null"
  | some (.string s) => Quoting.scalar s
  | some v => v.render

/-- The lines of a comment. -/
def commentLines : Option String → List String
  | none => []
  | some comment =>
    (Text.lines comment).map fun line =>
      String.ofList (Text.trimEnd ("# " ++ line).toList)

/-- The merge key with the names of its aliases. -/
def mergeLine (aliases : List String) : List String :=
  match aliases with
  | [] => []
  | [a] => ["<<: *" ++ a]
  | as => ["<<: [" ++ ", ".intercalate (as.map ("*" ++ ·)) ++ "]"]

/-- A text behind a node's anchor. -/
def withAnchor (d : NodeData) (text : String) : String :=
  match d.anchor with
  | some a => if text.isEmpty then "&" ++ a else "&" ++ a ++ " " ++ text
  | none => text

/-- A node, given the lines of its children; a leaf has none. -/
def written (d : NodeData) (leaf : Bool) (body : List String) : Written :=
  match d.type with
  | .string | .boolean | .number =>
    match d.aliases with
    | a :: _ => .inline ("*" ++ a)
    | [] => .inline (withAnchor d (scalarText d.value))
  | .object =>
    if leaf then
      match d.aliases, d.anchor with
      | [], _ => .inline (withAnchor d "\x7b\x7d")
      | [a], none => .inline ("*" ++ a)
      | as, _ => .block (withAnchor d "") (mergeLine as)
    else .block (withAnchor d "") (mergeLine d.aliases ++ body)
  | .array =>
    if leaf then
      match d.aliases, d.anchor with
      | a :: _, none => .inline ("*" ++ a)
      | _, _ => .inline (withAnchor d "[]")
    else .block (withAnchor d "") body

/-- The lines of a node behind its key. -/
def Written.underKey (key : String) : Written → List String
  | .inline text => [key ++ ": " ++ text]
  | .block header body =>
    (if header.isEmpty then key ++ ":" else key ++ ": " ++ header)
      :: body.map (indentation ++ ·)

/-- The lines of a node behind its dash. A comment cannot share the line of the dash. -/
def Written.underDash : Written → List String
  | .inline text => ["- " ++ text]
  | .block header body =>
    if !header.isEmpty then ("- " ++ header) :: body.map (indentation ++ ·)
    else match body with
      | [] => []
      | first :: rest =>
        if first.startsWith "#" then "-" :: body.map (indentation ++ ·)
        else ("- " ++ first) :: rest.map (indentation ++ ·)

/-- Writing: the names of the anchors written so far, and the first fault. -/
abbrev Emission := StateT (List String) (Except CompileError)

/-- What a node has that no document can hold. -/
def unwritable? (d : NodeData) (leaf : Bool) : Option Unwritable :=
  if d.aliases.isEmpty then none
  else match d.type with
    | .string | .boolean | .number => if d.anchor.isSome then some .anchoredScalarAlias else none
    | .object => none
    | .array =>
      if leaf then (if d.anchor.isSome then some .anchoredArrayAlias else none)
      else some .arrayMerge

/-- The anchor of a node is written, and the node checked. -/
def announce (validate : Bool) (d : NodeData) (leaf : Bool) (path : String) : Emission Unit := do
  if let some a := d.anchor then modify (a :: ·)
  if validate then
    let declared ← get
    if let some a := d.aliases.find? (!declared.contains ·) then
      throw (.unresolvedAlias a path)
    if let some reason := unwritable? d leaf then
      throw (.unrepresentable path reason)

/-- The lines of nodes at a path, behind keys or behind dashes. -/
def nodeLines (validate : Bool) (path : String) (dashes : Bool) :
    Forest NodeData → Emission (List String)
  | .nil => pure []
  | .cons d cs ss => do
    let here := joinKeys path [d.key]
    announce validate d cs.isEmpty here
    let body ←
      if d.type.isContainer then nodeLines validate here (d.type = .array) cs else pure []
    let w := written d cs.isEmpty body
    let own := if dashes then w.underDash else w.underKey (Quoting.scalar d.key)
    let rest ← nodeLines validate path dashes ss
    pure (commentLines d.comment ++ own ++ rest)

/-- Lines as a text. -/
def joinLines (lines : List String) : String := "\n".intercalate lines ++ "\n"

/-- The children of a node as a document. -/
def emitDraft (validate : Bool) (draft : Draft) : Except CompileError String :=
  if draft.isLeaf then .ok "\x7b\x7d\n"
  else do
    let lines ← (nodeLines validate draft.label.key false draft.children).run' []
    pure (joinLines lines)

/-- A tree as a document: the children of its root. -/
def emitTree (validate : Bool) (t : Tree) : Except CompileError String :=
  emitDraft validate (t.top.map (·.data))

/-- A configuration as a document. The environments may repeat anchors of the default tree. -/
def emit (c : Configuration) : Except CompileError String := do
  let entry := fun (t : Tree) =>
    let top := t.top.map (·.data)
    Forest.cons { top.label with comment := none } top.children .nil
  let lines ← (nodeLines true "" false (entry c.default ++ entry c.environments)).run' []
  pure (joinLines lines)

end LayeredConfig.Yaml
