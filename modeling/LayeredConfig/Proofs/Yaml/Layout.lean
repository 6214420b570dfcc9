import LayeredConfig.Proofs.Outcome
import LayeredConfig.Proofs.Yaml.Scanned
import LayeredConfig.Yaml.Written

/-!
# What a written document consists of

A node is written in one of six forms (`Form`), whatever its data are otherwise (`written_eq`), and
the lines of a forest are put together from those of its nodes (`lines_eq`). `items` gives each node
the line on which it is written and the line on which its block begins; from these alone follow the
tokens (`tokens`) and the nodes of the document (`documents`) that a reader has to find.
-/

namespace LayeredConfig.Yaml

/-! ## Forms -/

/-- How a node is written: as an alias of a node of this type, as a scalar, as an empty collection,
or as the lines of a block. -/
inductive Form where
  | aliased (name : String) (type : ValueType)
  | scalar (value : Option Scalar)
  | emptyMapping
  | emptySequence
  | mapping (merged : List String)
  | sequence

/-- The form in which a node is written. -/
def formOf (d : NodeData) (leaf : Bool) : Form :=
  match d.type with
  | .string | .boolean | .number => d.aliases.head?.elim (.scalar d.value) (.aliased · d.type)
  | .object =>
    if !leaf then .mapping d.aliases
    else if d.aliases.isEmpty then .emptyMapping
    else if d.aliases.tail.isEmpty && d.anchor.isNone then .aliased (d.aliases.headD "") .object
    else .mapping d.aliases
  | .array =>
    if !leaf then .sequence
    else if d.anchor.isNone then d.aliases.head?.elim .emptySequence (.aliased · .array)
    else .emptySequence

theorem formOf_scalar {d : NodeData} (h : d.type.isContainer = false) (leaf : Bool) :
    formOf d leaf = d.aliases.head?.elim (.scalar d.value) (.aliased · d.type) := by
  cases type : d.type <;> first | (rw [type] at h; cases h; done) | simp [formOf, type]

theorem formOf_object {d : NodeData} (object : d.type = .object) (leaf : Bool) :
    formOf d leaf = .emptyMapping ∨ (∃ merged, formOf d leaf = .mapping merged) ∨
      ∃ name, formOf d leaf = .aliased name .object := by
  rw [formOf, object]
  dsimp only
  split
  · exact Or.inr (Or.inl ⟨_, rfl⟩)
  · split
    · exact Or.inl rfl
    · split
      · exact Or.inr (Or.inr ⟨_, rfl⟩)
      · exact Or.inr (Or.inl ⟨_, rfl⟩)

theorem formOf_array {d : NodeData} (array : d.type = .array) (leaf : Bool) :
    formOf d leaf = .emptySequence ∨ formOf d leaf = .sequence ∨ ∃ name, formOf d leaf = .aliased name .array := by
  rw [formOf, array]
  dsimp only
  split
  · exact Or.inr (Or.inl rfl)
  · split
    · cases d.aliases.head? with
      | none => exact Or.inl rfl
      | some a => exact Or.inr (Or.inr ⟨a, rfl⟩)
    · exact Or.inl rfl

namespace Form

/-- A text behind an anchor. -/
def anchored (anchor : Option String) (text : String) : String :=
  anchor.elim text fun a => if text.isEmpty then "&" ++ a else "&" ++ a ++ " " ++ text

/-- The lines of a node's block, given those of its children. -/
def body (lines : List String) : Form → List String
  | .mapping merged => mergeLine merged ++ lines
  | .sequence => lines
  | _ => []

/-- A node in a form, given the lines of its children. -/
def written (anchor : Option String) (lines : List String) : Form → Written
  | .aliased name _ => .inline ("*" ++ name)
  | .scalar value => .inline (anchored anchor (scalarText value))
  | .emptyMapping => .inline (anchored anchor "\x7b\x7d")
  | .emptySequence => .inline (anchored anchor "[]")
  | .mapping merged => .block (anchored anchor "") (mergeLine merged ++ lines)
  | .sequence => .block (anchored anchor "") lines

end Form

theorem withAnchor_eq (d : NodeData) (text : String) : withAnchor d text = Form.anchored d.anchor text := by
  cases h : d.anchor <;> simp [withAnchor, Form.anchored, h]

/-- **A node is written in its form.** -/
theorem written_eq (d : NodeData) (leaf : Bool) (lines : List String) :
    written d leaf lines = (formOf d leaf).written d.anchor (if leaf then [] else lines) := by
  cases type : d.type with
  | string | boolean | number =>
    cases aliases : d.aliases <;> simp [written, formOf, type, aliases, Form.written, withAnchor_eq]
  | object =>
    cases leaf with
    | false => simp [written, formOf, type, Form.written, withAnchor_eq]
    | true =>
      rcases aliases : d.aliases with - | ⟨a, - | ⟨b, more⟩⟩ <;> cases anchor : d.anchor <;>
        simp [written, formOf, type, Form.written, withAnchor_eq, aliases, anchor]
  | array =>
    cases leaf with
    | false => simp [written, formOf, type, Form.written, withAnchor_eq]
    | true =>
      cases aliases : d.aliases <;> cases anchor : d.anchor <;>
        simp [written, formOf, type, Form.written, withAnchor_eq, aliases, anchor]

/-! ## Lines -/

/-- The lines of a node, given those of its children. -/
def ownLines (dashes : Bool) (d : NodeData) (leaf : Bool) (lines : List String) : List String :=
  let w := (formOf d leaf).written d.anchor lines
  if dashes then w.underDash else w.underKey (Quoting.scalar d.key)

/-- The lines of nodes, behind keys or behind dashes. -/
def linesOf (dashes : Bool) : Forest NodeData → List String
  | .nil => []
  | .cons d cs ss =>
    commentLines d.comment ++ ownLines dashes d cs.isEmpty (linesOf (d.type = .array) cs)
      ++ linesOf dashes ss

/-- **The lines of a forest.** -/
theorem lines_eq {validate dashes : Bool} {f : Forest NodeData} {path : String}
    {declared declared' lines : List String}
    (h : nodeLines validate path dashes f declared = .ok (lines, declared')) : lines = linesOf dashes f := by
  induction f generalizing validate dashes path declared declared' lines with
  | nil => cases h; rfl
  | cons d cs ss ihc ihs =>
    rw [nodeLines] at h
    obtain ⟨⟨⟩, declared₁, -, h⟩ := Outcome.run_bind_eq_ok.1 h
    -- The rest of the work does not depend on where the lines of the block come from.
    have rest {body : List String} {declared : List String}
        (h : (do
          let rest ← nodeLines validate path dashes ss
          pure (commentLines d.comment ++ (if dashes then (written d cs.isEmpty body).underDash
            else (written d cs.isEmpty body).underKey (Quoting.scalar d.key)) ++ rest) : Emission (List String))
              declared = .ok (lines, declared')) :
        lines = commentLines d.comment ++ (if dashes then (written d cs.isEmpty body).underDash
          else (written d cs.isEmpty body).underKey (Quoting.scalar d.key)) ++ linesOf dashes ss := by
      obtain ⟨rest, declared₃, hrest, h⟩ := Outcome.run_bind_eq_ok.1 h
      cases h
      rw [ihs hrest]
    rw [linesOf, ownLines]
    split at h
    · obtain ⟨body, declared₂, hbody, h⟩ := Outcome.run_bind_eq_ok.1 h
      obtain rfl := ihc hbody
      rw [rest h, written_eq]
      cases cs <;> rfl
    · rename_i scalar
      obtain ⟨body, declared₂, hbody, h⟩ := Outcome.run_bind_eq_ok.1 h
      have any (lines lines' : List String) : (formOf d cs.isEmpty).written d.anchor lines =
          (formOf d cs.isEmpty).written d.anchor lines' := by
        rw [formOf_scalar (Bool.eq_false_iff.2 scalar)]
        cases d.aliases <;> rfl
      rw [rest h, written_eq, any]

/-! ## Checks -/

/-- Without `validate` nothing is checked of a node, only its anchor is announced. -/
theorem announce_false (d : NodeData) (leaf : Bool) (path : String) (declared : List String) :
    announce false d leaf path declared = .ok ((), d.anchor.toList ++ declared) := by
  unfold announce
  cases d.anchor <;> rfl

/-- What is checked of a node behind its anchor: that its aliases are known, and that a document can
hold it. -/
def checkNode (d : NodeData) (leaf : Bool) (path : String) (known : List String) : Emission Unit := do
  if let some a := d.aliases.find? (!known.contains ·) then
    throw (.unresolvedAlias a path)
  if let some reason := unwritable? d leaf then
    throw (.unrepresentable path reason)

theorem announce_eq_checkNode (d : NodeData) (leaf : Bool) (path : String) (declared : List String) :
    announce true d leaf path declared =
      checkNode d leaf path (d.anchor.toList ++ declared) (d.anchor.toList ++ declared) := by
  unfold announce checkNode
  cases d.anchor <;> rfl

/-- The first alias that is not known is refused, and then the node itself. -/
theorem announce_true (d : NodeData) (leaf : Bool) (path : String) (declared : List String) :
    announce true d leaf path declared =
      (((d.aliases.find? (!(d.anchor.toList ++ declared).contains ·)).map (.unresolvedAlias · path)).or
        ((unwritable? d leaf).map (.unrepresentable path ·))).elim
          (.ok ((), d.anchor.toList ++ declared)) .error := by
  rw [announce_eq_checkNode, checkNode]
  cases d.aliases.find? (!(d.anchor.toList ++ declared).contains ·) with
  | some a => rfl
  | none => cases unwritable? d leaf <;> rfl

/-- What is announced of a node: its anchor, and that each of its aliases was before. -/
theorem announce_ok {d : NodeData} {leaf : Bool} {path : String} {declared declared' : List String}
    (h : announce true d leaf path declared = .ok ((), declared')) :
    declared' = d.anchor.toList ++ declared ∧ (∀ a ∈ d.aliases, a ∈ declared') ∧ unwritable? d leaf = none := by
  rw [announce_true] at h
  cases unknown : d.aliases.find? (!(d.anchor.toList ++ declared).contains ·) with
  | some a =>
    rw [unknown] at h
    cases h
  | none =>
    rw [unknown] at h
    cases reason : unwritable? d leaf with
    | some r =>
      rw [reason] at h
      cases h
    | none =>
      rw [reason] at h
      cases h
      refine ⟨rfl, fun a ha => ?_, rfl⟩
      have known := List.find?_eq_none.1 unknown a ha
      rwa [Bool.not_eq_true', Bool.not_eq_false, List.contains_iff_mem] at known

/-! ## Where nodes stand -/

/-- A node of a written document: its key, the form in which it is written, the line on which it is
written and the line on which its block begins. -/
structure Item where
  key : String
  anchor : Option String
  form : Form
  line : Nat
  block : Nat

namespace Form

/-- The line in front of the entries of a block, if it merges others. -/
def mergeLines : Form → List String
  | .mapping merged => mergeLine merged
  | _ => []

/-- The number of lines from a node's line to its block. -/
def inset (dashes : Bool) (anchor : Option String) (body : List String) : Nat :=
  if dashes && anchor.isNone && !(body.head?.any (·.startsWith "#")) then 0 else 1

end Form

/-- The number of comment lines at the start of a forest. -/
def leadingComments : Forest NodeData → Nat
  | .nil => 0
  | .cons d _ _ => (commentLines d.comment).length

/-- The line on which the block of a node begins that is written on the line `own`. -/
def blockLine (dashes : Bool) (own : Nat) (d : NodeData) (below : Forest NodeData) : Nat :=
  own + Form.inset dashes d.anchor ((formOf d below.isEmpty).body (linesOf (d.type = .array) below))

/-- The item of a node that is written on the line `own`. -/
def itemOf (dashes : Bool) (own : Nat) (d : NodeData) (below : Forest NodeData) : Item :=
  let form := formOf d below.isEmpty
  let above := if form.mergeLines.isEmpty then leadingComments below else 0
  ⟨d.key, d.anchor, form, own, blockLine dashes own d below + above⟩

section

variable (dashes : Bool) (own : Nat) (d : NodeData) (below : Forest NodeData)

@[simp] theorem itemOf_key : (itemOf dashes own d below).key = d.key := rfl

@[simp] theorem itemOf_anchor : (itemOf dashes own d below).anchor = d.anchor := rfl

@[simp] theorem itemOf_form : (itemOf dashes own d below).form = formOf d below.isEmpty := rfl

@[simp] theorem itemOf_line : (itemOf dashes own d below).line = own := rfl

end

/-- The items of a forest that is written from a line on. -/
def items (dashes : Bool) (line : Nat) : Forest NodeData → Forest Item
  | .nil => .nil
  | .cons d below ss =>
    let own := line + (commentLines d.comment).length
    .cons (itemOf dashes own d below)
      (items (d.type = .array) (blockLine dashes own d below + (formOf d below.isEmpty).mergeLines.length) below)
      (items dashes (own + (ownLines dashes d below.isEmpty (linesOf (d.type = .array) below)).length) ss)

/-! ## Tokens -/

/-- The text of a scalar without quotes. -/
def scalarRead : Option Scalar → String
  | none => "null"
  | some v => v.render

/-- The style in which a scalar is written. -/
def scalarStyle : Option Scalar → Style
  | some (.string s) => Quoting.styleOf s
  | _ => .plain

/-- The value that a scalar is read as. -/
def scalarBack (value : Option Scalar) : Option Scalar :=
  Document.scalarValue (scalarRead value) (scalarStyle value = .plain)

/-- The token of an anchor. -/
def anchorTokens (anchor : Option String) : List (Nat × TokenKind) :=
  anchor.toList.map fun a => (0, .anchor a)

/-- The tokens of a merge key with its aliases. -/
def mergeTokens (line : Nat) : List String → List (Nat × TokenKind)
  | [] => []
  | [a] => [(0, .key), (line, .scalar .plain "<<"), (0, .value), (line, .alias a)]
  | as => [(0, .key), (line, .scalar .plain "<<"), (0, .value), (line, .flowSequenceStart)]
    ++ (as.map fun a => (line, .alias a)).intersperse (0, .flowEntry) ++ [(0, .flowSequenceEnd)]

/-- The tokens of a node in a form, given those of its children. -/
def Form.tokens (line block : Nat) (anchor : Option String) (children : List (Nat × TokenKind)) :
    Form → List (Nat × TokenKind)
  | .aliased name _ => [(line, .alias name)]
  | .scalar value => anchorTokens anchor ++ [(line, .scalar (scalarStyle value) (scalarRead value))]
  | .emptyMapping => anchorTokens anchor ++ [(line, .flowMappingStart), (0, .flowMappingEnd)]
  | .emptySequence => anchorTokens anchor ++ [(line, .flowSequenceStart), (0, .flowSequenceEnd)]
  | .mapping merged =>
    anchorTokens anchor ++ ((block, .blockMappingStart) :: (mergeTokens block merged ++ children ++ [(0, .blockEnd)]))
  | .sequence => anchorTokens anchor ++ ((block, .blockSequenceStart) :: (children ++ [(0, .blockEnd)]))

/-- Whether the children of a node stand behind dashes. -/
def Form.isSequence : Form → Bool
  | .sequence => true
  | _ => false

/-- The tokens of a key. -/
def keyTokens (line : Nat) (style : Style) (text : String) : List (Nat × TokenKind) :=
  [(0, .key), (line, .scalar style text), (0, .value)]

/-- The tokens in front of a node. -/
def leadTokens (dashes : Bool) (line : Nat) (key : String) : List (Nat × TokenKind) :=
  if dashes then [(0, .blockEntry)] else keyTokens line (Quoting.styleOf key) key

/-- The tokens of an item, given those of its children. -/
def Item.tokens (dashes : Bool) (it : Item) (children : List (Nat × TokenKind)) : List (Nat × TokenKind) :=
  leadTokens dashes it.line it.key ++ it.form.tokens it.line it.block it.anchor children

/-- The tokens of nodes behind keys or behind dashes. -/
def tokensIn (dashes : Bool) : Forest Item → List (Nat × TokenKind)
  | .nil => []
  | .cons it cs ss => it.tokens dashes (tokensIn it.form.isSequence cs) ++ tokensIn dashes ss

end LayeredConfig.Yaml
