import LayeredConfig.Yaml.Event

/-!
# From tokens to events

A pushdown automaton over the tokens of a text. Each step looks at the next token, emits one event
and goes to another state; a collection or document that ends goes back to the state on the stack.
The first document is read and nothing after it.
-/

namespace LayeredConfig.Yaml

/-- What the automaton expects next. -/
inductive Expectation where
  | streamStart
  | implicitDocumentStart
  | documentStart
  | documentContent
  | documentEnd
  | blockNode
  | blockSequenceEntry (first : Bool)
  | indentlessSequenceEntry
  | blockMappingKey (first : Bool)
  | blockMappingValue
  | flowSequenceEntry (first : Bool)
  | pairKey
  | pairValue
  | pairEnd (mark : Mark)
  | flowMappingKey (first : Bool)
  | flowMappingValue
  | flowMappingEmptyValue
  deriving DecidableEq, Repr, Inhabited

/-- The automaton: the tokens to come, what is expected, and what is expected after that. -/
structure Automaton where
  tokens : List Token
  state : Expectation := .streamStart
  stack : List Expectation := []
  /-- The number of each anchor name, the latest declaration first. -/
  anchors : List (String × Nat) := []
  nextAnchor : Nat := 1
  /-- The tag handles that are declared. -/
  handles : List String := []

namespace Automaton

/-- What a step gives: an event at its mark, and the automaton after it. -/
abbrev Step := Option ((Mark × Event) × Automaton)

/-- The automaton past the next token. -/
def skip (a : Automaton) : Automaton := { a with tokens := a.tokens.drop 1 }

/-- The automaton in another state. -/
def goto (a : Automaton) (state : Expectation) : Automaton := { a with state }

/-- The automaton with something to expect later. -/
def later (a : Automaton) (state : Expectation) : Automaton :=
  { a with stack := state :: a.stack }

/-- The automaton with what was to be expected later. -/
def back (a : Automaton) : Automaton :=
  match a.stack with
  | state :: stack => { a with state, stack }
  | [] => a

/-- The automaton with an anchor declared, and the anchor's number. -/
def declare (a : Automaton) (name : String) : Nat × Automaton :=
  (a.nextAnchor,
    { a with anchors := (name, a.nextAnchor) :: a.anchors, nextAnchor := a.nextAnchor + 1 })

/-- Whether a tag with this handle may be used: a handle between two exclamation marks has to be
declared, unless it is `!!`. -/
def knowsHandle (a : Automaton) (handle : String) : Bool :=
  handle.length < 3 || !handle.endsWith "!" || a.handles.contains handle

/-- The anchor, if any, and the tag, if any, that precede a node: the anchor's number and whether
there was either. -/
def properties (a : Automaton) : Option (Nat × Bool × Automaton) :=
  match a.tokens with
  | ⟨_, .anchor name⟩ :: rest =>
    let (number, a) := { a with tokens := rest }.declare name
    match rest with
    | ⟨_, .tag handle⟩ :: _ => if a.knowsHandle handle then some (number, true, a.skip) else none
    | _ => some (number, true, a)
  | ⟨_, .tag handle⟩ :: rest =>
    if a.knowsHandle handle then
      match rest with
      | ⟨_, .anchor name⟩ :: rest =>
        let (number, a) := { a with tokens := rest }.declare name
        some (number, true, a)
      | _ => some (0, true, { a with tokens := rest })
    else none
  | _ => some (0, false, a)

/-- A node after its anchor and tag. -/
def content (a : Automaton) (block indentless : Bool) (anchor : Nat) (marked : Bool) : Step :=
  match a.tokens with
  | [] => none
  | ⟨m, kind⟩ :: rest =>
    let absent : Step := if marked then some ((m, .missingWith anchor), a.back) else none
    match kind with
    | .scalar style text => some ((m, .scalar text style anchor), { a with tokens := rest }.back)
    | .flowSequenceStart => some ((m, .sequenceStart anchor), a.goto (.flowSequenceEntry true))
    | .flowMappingStart => some ((m, .mappingStart anchor), a.goto (.flowMappingKey true))
    | .blockSequenceStart =>
      if block then some ((m, .sequenceStart anchor), a.goto (.blockSequenceEntry true)) else absent
    | .blockMappingStart =>
      if block then some ((m, .mappingStart anchor), a.goto (.blockMappingKey true)) else absent
    | .blockEntry =>
      if indentless then some ((m, .sequenceStart anchor), a.goto .indentlessSequenceEntry)
      else absent
    | _ => absent

/-- A node. -/
def node (a : Automaton) (block indentless : Bool) : Step :=
  match a.tokens with
  | ⟨m, .alias name⟩ :: rest =>
    (a.anchors.lookup name).map fun number => ((m, .alias number), { a with tokens := rest }.back)
  | _ => do
    let (anchor, marked, a) ← a.properties
    a.content block indentless anchor marked

/-- A node after which `after` is expected. -/
def nodeThen (a : Automaton) (after : Expectation) (block indentless : Bool) : Step :=
  (a.later after).node block indentless

/-- Past the directives of a document. A version may be given once; each tag directive takes the
place of those before it. -/
def directives (a : Automaton) (versionGiven : Bool) : List Token → Option Automaton
  | ⟨_, .versionDirective⟩ :: rest =>
    if versionGiven then none else { a with handles := [] }.directives true rest
  | ⟨_, .tagDirective handle⟩ :: rest => { a with handles := [handle] }.directives versionGiven rest
  | rest => some { a with tokens := rest }

/-- Past the marks of document ends. -/
def skipDocumentEnds (a : Automaton) : Automaton :=
  { a with tokens := a.tokens.dropWhile (·.kind = .documentEnd) }

/-- A document with a mark at its start. -/
def explicitDocument (a : Automaton) : Step := do
  let a ← a.directives false a.tokens
  match a.tokens with
  | ⟨m, .documentStart⟩ :: rest =>
    some ((m, .documentStart), ({ a with tokens := rest }.later .documentEnd).goto .documentContent)
  | _ => none

/-- The start of a document, or the end of the text. -/
def document (a : Automaton) (implicit : Bool) : Step :=
  let a := a.skipDocumentEnds
  match a.tokens with
  | [] => none
  | ⟨m, .streamEnd⟩ :: rest => some ((m, .streamEnd), { a with tokens := rest })
  | ⟨_, .versionDirective⟩ :: _ | ⟨_, .tagDirective _⟩ :: _ | ⟨_, .documentStart⟩ :: _ =>
    a.explicitDocument
  | ⟨m, _⟩ :: _ =>
    if implicit then some ((m, .documentStart), (a.later .documentEnd).goto .blockNode)
    else a.explicitDocument

/-- The content of a document with a mark at its start. -/
def documentBody (a : Automaton) : Step :=
  match a.tokens with
  | [] => none
  | ⟨m, kind⟩ :: _ =>
    match kind with
    | .versionDirective | .tagDirective _ | .documentStart | .documentEnd | .streamEnd =>
      some ((m, .missing), a.back)
    | _ => a.node true false

/-- The end of a document. A directive needs the mark of a document end before it. -/
def documentEnding (a : Automaton) : Step :=
  match a.tokens with
  | [] => none
  | ⟨m, .documentEnd⟩ :: rest =>
    some ((m, .documentEnd), { a with tokens := rest, handles := [] }.goto .implicitDocumentStart)
  | ⟨_, .versionDirective⟩ :: _ | ⟨_, .tagDirective _⟩ :: _ => none
  | ⟨m, _⟩ :: _ => some ((m, .documentEnd), { a with handles := [] }.goto .documentStart)

/-- The key of a block mapping, or its end. -/
def blockMappingKey (a : Automaton) : Step :=
  match a.tokens with
  | ⟨_, .key⟩ :: rest =>
    let a := { a with tokens := rest }
    match rest with
    | [] => none
    | ⟨m, .key⟩ :: _ | ⟨m, .value⟩ :: _ | ⟨m, .blockEnd⟩ :: _ =>
      some ((m, .missing), a.goto .blockMappingValue)
    | _ => a.nodeThen .blockMappingValue true true
  | ⟨m, .value⟩ :: _ => some ((m, .missing), a.goto .blockMappingValue)
  | ⟨m, .blockEnd⟩ :: rest => some ((m, .mappingEnd), { a with tokens := rest }.back)
  | _ => none

/-- The value of a block mapping. -/
def blockMappingValue (a : Automaton) : Step :=
  match a.tokens with
  | [] => none
  | ⟨_, .value⟩ :: rest =>
    let a := { a with tokens := rest }
    match rest with
    | [] => none
    | ⟨m, .key⟩ :: _ | ⟨m, .value⟩ :: _ | ⟨m, .blockEnd⟩ :: _ =>
      some ((m, .missing), a.goto (.blockMappingKey false))
    | _ => a.nodeThen (.blockMappingKey false) true true
  | ⟨m, _⟩ :: _ => some ((m, .missing), a.goto (.blockMappingKey false))

/-- The entry of a block sequence, or its end. -/
def blockSequenceEntry (a : Automaton) : Step :=
  match a.tokens with
  | ⟨m, .blockEnd⟩ :: rest => some ((m, .sequenceEnd), { a with tokens := rest }.back)
  | ⟨_, .blockEntry⟩ :: rest =>
    let a := { a with tokens := rest }
    match rest with
    | [] => none
    | ⟨m, .blockEntry⟩ :: _ | ⟨m, .blockEnd⟩ :: _ =>
      some ((m, .missing), a.goto (.blockSequenceEntry false))
    | _ => a.nodeThen (.blockSequenceEntry false) true false
  | _ => none

/-- The entry of a block sequence that is indented like the mapping around it, or its end. -/
def indentlessEntry (a : Automaton) : Step :=
  match a.tokens with
  | [] => none
  | ⟨_, .blockEntry⟩ :: rest =>
    let a := { a with tokens := rest }
    match rest with
    | [] => none
    | ⟨m, .blockEntry⟩ :: _ | ⟨m, .key⟩ :: _ | ⟨m, .value⟩ :: _ | ⟨m, .blockEnd⟩ :: _ =>
      some ((m, .missing), a.goto .indentlessSequenceEntry)
    | _ => a.nodeThen .indentlessSequenceEntry true false
  | ⟨m, _⟩ :: _ => some ((m, .sequenceEnd), a.back)

/-- The entry of a flow sequence after its comma, or the end of the sequence. -/
def flowEntry (a : Automaton) : Step :=
  match a.tokens with
  | [] => none
  | ⟨m, .flowSequenceEnd⟩ :: rest => some ((m, .sequenceEnd), { a with tokens := rest }.back)
  | ⟨m, .key⟩ :: rest => some ((m, .mappingStart 0), { a with tokens := rest }.goto .pairKey)
  | _ => a.nodeThen (.flowSequenceEntry false) false false

/-- The entry of a flow sequence with its comma, or the end of the sequence. -/
def flowSequenceEntry (a : Automaton) (first : Bool) : Step :=
  if first then a.flowEntry
  else match a.tokens with
    | ⟨_, .flowSequenceEnd⟩ :: _ => a.flowEntry
    | ⟨_, .flowEntry⟩ :: rest => { a with tokens := rest }.flowEntry
    | _ => none

/-- The key of a mapping of a single pair. -/
def pairKey (a : Automaton) : Step :=
  match a.tokens with
  | [] => none
  | ⟨m, .value⟩ :: rest | ⟨m, .flowEntry⟩ :: rest | ⟨m, .flowSequenceEnd⟩ :: rest =>
    some ((m, .missing), { a with tokens := rest }.goto .pairValue)
  | _ => a.nodeThen .pairValue false false

/-- The value of a mapping of a single pair. -/
def pairValue (a : Automaton) : Step :=
  match a.tokens with
  | [] => none
  | ⟨_, .value⟩ :: rest =>
    let a := { a with tokens := rest }
    match rest with
    | [] => none
    | ⟨m, .flowEntry⟩ :: _ | ⟨m, .flowSequenceEnd⟩ :: _ =>
      some ((m, .missing), a.goto (.pairEnd m))
    | ⟨m, _⟩ :: _ => a.nodeThen (.pairEnd m) false false
  | ⟨m, _⟩ :: _ => some ((m, .missing), a.goto (.pairEnd m))

/-- The key of a flow mapping after its comma, or the end of the mapping. -/
def flowKey (a : Automaton) : Step :=
  match a.tokens with
  | [] => none
  | ⟨_, .key⟩ :: rest =>
    let a := { a with tokens := rest }
    match rest with
    | [] => none
    | ⟨m, .value⟩ :: _ | ⟨m, .flowEntry⟩ :: _ | ⟨m, .flowMappingEnd⟩ :: _ =>
      some ((m, .missing), a.goto .flowMappingValue)
    | _ => a.nodeThen .flowMappingValue false false
  | ⟨m, .value⟩ :: _ => some ((m, .missing), a.goto .flowMappingValue)
  | ⟨m, .flowMappingEnd⟩ :: rest => some ((m, .mappingEnd), { a with tokens := rest }.back)
  | _ => a.nodeThen .flowMappingEmptyValue false false

/-- The key of a flow mapping with its comma, or the end of the mapping. -/
def flowMappingKey (a : Automaton) (first : Bool) : Step :=
  if first then a.flowKey
  else match a.tokens with
    | ⟨_, .flowMappingEnd⟩ :: _ => a.flowKey
    | ⟨_, .flowEntry⟩ :: rest => { a with tokens := rest }.flowKey
    | _ => none

/-- The value of a flow mapping. -/
def flowMappingValue (a : Automaton) : Step :=
  match a.tokens with
  | [] => none
  | ⟨m, .value⟩ :: rest =>
    let a := { a with tokens := rest }
    match rest with
    | [] => none
    | ⟨_, .flowEntry⟩ :: _ | ⟨_, .flowMappingEnd⟩ :: _ =>
      some ((m, .missing), a.goto (.flowMappingKey false))
    | _ => a.nodeThen (.flowMappingKey false) false false
  | ⟨m, _⟩ :: _ => some ((m, .missing), a.goto (.flowMappingKey false))

/-- The next event. -/
def step (a : Automaton) : Step :=
  match a.state with
  | .streamStart =>
    match a.tokens with
    | ⟨m, .streamStart⟩ :: rest =>
      some ((m, .streamStart), { a with tokens := rest }.goto .implicitDocumentStart)
    | _ => none
  | .implicitDocumentStart => a.document true
  | .documentStart => a.document false
  | .documentContent => a.documentBody
  | .documentEnd => a.documentEnding
  | .blockNode => a.node true false
  | .blockSequenceEntry first => (if first then a.skip else a).blockSequenceEntry
  | .indentlessSequenceEntry => a.indentlessEntry
  | .blockMappingKey first => (if first then a.skip else a).blockMappingKey
  | .blockMappingValue => a.blockMappingValue
  | .flowSequenceEntry first => (if first then a.skip else a).flowSequenceEntry first
  | .pairKey => a.pairKey
  | .pairValue => a.pairValue
  | .pairEnd m => some ((m, .mappingEnd), a.goto (.flowSequenceEntry false))
  | .flowMappingKey first => (if first then a.skip else a).flowMappingKey first
  | .flowMappingValue => a.flowMappingValue
  | .flowMappingEmptyValue =>
    match a.tokens with
    | [] => none
    | ⟨m, _⟩ :: _ => some ((m, .missing), a.goto (.flowMappingKey false))

/-- The events up to the end of the first document, or of the text. -/
def run : Nat → Automaton → Option (List (Mark × Event))
  | 0, _ => none
  | fuel + 1, a =>
    match a.step with
    | none => none
    | some ((m, e), a) =>
      match e with
      | .streamEnd | .documentEnd => some [(m, e)]
      | _ => (a.run fuel).map ((m, e) :: ·)

end Automaton

/-- The events of the first document of a text, or nothing if its tokens are not those of a
document. No token takes part in more than four events. -/
def eventsOf? (tokens : List Token) : Option (List (Mark × Event)) :=
  Automaton.run (4 * tokens.length + 4) { tokens }

end LayeredConfig.Yaml
