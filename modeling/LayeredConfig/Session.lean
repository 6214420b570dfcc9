import LayeredConfig.Alignment
import LayeredConfig.KeyOption

/-!
# Editing sessions

A session owns a configuration while it is edited. It is idle until a property is composed, and
idle again once the property is committed or given up. Every step gives its result together with
the session after it, also when it fails, so what a failed step leaves behind can be spoken about.

`commit` and `delete` keep the two trees aligned. View state, the nodes that are shown expanded, is
dropped for nodes that are gone whenever one of them succeeds.
-/

namespace LayeredConfig

/-- A property that is being composed: `node` is edited, or a property is added below it. -/
structure Composition where
  editing : Bool
  environmentsFile : Bool
  options : List KeyOption
  node : NodeRef
  /-- The root of the default tree, where inherited values are looked up. -/
  defaultRoot : Handle
  deriving DecidableEq, Repr

/-- Whether a property is being composed. -/
inductive SessionState where
  | idle
  | composing (property : Composition)
  deriving DecidableEq, Repr, Inhabited

/-- A configuration that is being edited. -/
structure Session where
  config : Configuration
  markers : Markers
  /-- The environment names on offer. -/
  known : List String
  /-- Environments may have any name. -/
  environmentsFile : Bool := false
  state : SessionState := .idle
  expanded : List NodeRef := []
  deriving DecidableEq

/-- The answer to a question before a deletion. The dialog itself may fail. -/
inductive Confirmation where
  | yes
  | no
  | failed
  deriving DecidableEq, Repr, Inhabited

/-- A draft fit for its type: a container has no value and an array numbers its items; a scalar has
no children and a value of its type. -/
def Draft.sanitized (draft : Draft) : Except EditError Draft :=
  let d := draft.label
  if d.type.isContainer then
    .ok ⟨{ d with value := none },
      if d.type = .array then numberItems draft.children else draft.children⟩
  else
    match d.value with
    | some value =>
      if value.valueType = d.type then .ok ⟨d, .nil⟩
      else .error (.typeMismatch value.render d.type)
    | none => .ok ⟨d, .nil⟩

/-- An edit of a configuration. A fault ends it, and what was changed before the fault stays
changed. -/
abbrev Editing := ExceptT EditError (StateM Configuration)

namespace Editing

/-- The result of an edit, and the configuration after it. -/
def apply {α : Type} (edit : Editing α) (c : Configuration) : Except EditError α × Configuration :=
  (ExceptT.run edit).run c

/-- What is found in the configuration; where there is nothing, the edit ends. -/
def find {α : Type} (missing : EditError) (look : Configuration → Option α) : Editing α := do
  match look (← get) with
  | some found => pure found
  | none => throw missing

/-- Another tree in place of the one that a node belongs to. -/
def setTree (n : NodeRef) (t : Tree) : Editing Unit :=
  modify (·.mapTree n.tree fun _ => t)

end Editing

namespace Configuration

/-- A draft as it may be added below a node of a tree: an array gives it the next position as its
key, and below an object its key must be free. -/
def admittedBelow (t : Tree) (parent : Handle) (data : NodeData) (path : String) (draft : Draft) :
    Except EditError Draft := do
  if data.type.isScalar then throw (.notAContainer path)
  let key := if data.type = .array then itemKey (t.children parent).length else draft.label.key
  if data.type ≠ .array ∧ (t.child? parent key).isSome then throw (.duplicateKey key path)
  Draft.sanitized { draft with label := { draft.label with key } }

/-- Add a draft below a node. -/
def addBelow (parent : NodeRef) (draft : Draft) : Editing NodeRef := do
  let path := (← get).pathText parent
  let missing := EditError.nodeNotFound path
  let t ← Editing.find missing (·.tree? parent.tree)
  let data ← Editing.find missing (·.data? parent)
  let draft ← admittedBelow t parent.handle data path draft
  let (t, added) := t.graft parent.handle draft
  Editing.setTree parent t
  match added with
  | some added => pure ⟨parent.tree, added⟩
  | none => throw missing

/-- A draft as it may replace a node: the root and the items of an array keep their keys, the root
and overrides keep their types, and the key must be free. -/
def admittedEdit (t : Tree) (n : NodeRef) (live : NodeData) (draft : Draft) :
    Except EditError Draft := do
  let d := draft.label
  let atRoot := (t.parent? n.handle).isNone
  let key := if atRoot ∨ t.isItem n.handle then live.key else d.key
  let type := if atRoot ∨ n.tree ≠ .default then live.type else d.type
  if let some parent := t.parent? n.handle then
    if key ≠ live.key ∧ (t.child? parent key).isSome then
      throw (.duplicateKey key (t.pathText parent))
  Draft.sanitized { draft with label := { d with key, type } }

/-- The configuration before a default node below the root changes its type or key. -/
def alignEdit (c : Configuration) (n : NodeRef) (live new : NodeData) (m : Markers) :
    Configuration :=
  if n.tree = .default ∧ (c.default.parent? n.handle).isSome then
    if live.type ≠ new.type then (c.alignTypeChange n.handle).1
    else if live.key ≠ new.key then (c.alignKeyRename n.handle new.key m).1
    else c
  else c

/-- The configuration after an anchor changed. -/
def alignAnchor (c : Configuration) : Option String → Option String → Configuration
  | some old, some new => if old ≠ new then (c.alignAnchorRename old new).1 else c
  | some old, none => (c.alignAnchorRemoval old).1
  | none, _ => c

/-- The tree with a draft's data in place of a node's. The children stay, unless the draft has
some of its own or is a scalar. -/
def writeDraft (t : Tree) (h : Handle) (draft : Draft) : Tree :=
  let t := t.modify h fun _ => draft.label
  if draft.label.type.isScalar then t.clear h
  else if draft.children.isEmpty then t
  else t.replace h draft.children

/-- Edit a node, with everything that follows from it. -/
def edit (n : NodeRef) (draft : Draft) (m : Markers) : Editing NodeRef := do
  let missing := EditError.nodeNotFound ((← get).pathText n)
  let t ← Editing.find missing (·.tree? n.tree)
  let live ← Editing.find missing (·.data? n)
  let draft ← admittedEdit t n live draft
  modify (·.alignEdit n live draft.label m)
  let t ← Editing.find missing (·.tree? n.tree)
  Editing.setTree n (writeDraft t n.handle draft)
  modify (·.alignAnchor live.anchor draft.label.anchor)
  pure n

/-- Delete a node, its overrides and the aliases of its anchor. -/
def delete (n : NodeRef) : Editing Unit := do
  let path := (← get).pathText n
  let missing := EditError.nodeNotFound path
  let t ← Editing.find missing (·.tree? n.tree)
  let data ← Editing.find missing (·.data? n)
  let parent ← Editing.find (.cannotDeleteRoot path) fun _ => t.parent? n.handle
  Editing.setTree n (t.remove n.handle).1
  modify fun c => match data.anchor with
    | some anchor => (c.alignAnchorRemoval anchor).1
    | none => c
  modify fun c =>
    if n.tree = .default ∧ !t.isArray parent then (c.alignDeletion (t.alignedPath n.handle)).1 else c

end Configuration

namespace Session

/-- Whether a node is shown expanded. -/
def isExpanded (s : Session) (n : NodeRef) : Bool := s.expanded.contains n

/-- The session with a node marked expanded. -/
def mark (s : Session) (n : NodeRef) : Session :=
  { s with expanded := if s.expanded.contains n then s.expanded else n :: s.expanded }

/-- The session with a node shown expanded, if there is such a node. -/
def expand (s : Session) (n : NodeRef) : Session :=
  if s.config.contains n then s.mark n else s

/-- The session with a node shown collapsed. -/
def collapse (s : Session) (n : NodeRef) : Session :=
  { s with expanded := s.expanded.filter (· ≠ n) }

/-- The session with what was composed given up. -/
def cancel (s : Session) : Session := { s with state := .idle }

/-- The session without view state for nodes that are gone. -/
def refresh (s : Session) : Session :=
  { s with
    expanded := s.expanded.filter s.config.contains
    state := match s.state with
      | .composing property => if s.config.contains property.node then s.state else .idle
      | .idle => .idle }

/-- Start to add a property below a node, or to edit the node. -/
def compose (s : Session) (n : NodeRef) (editing : Bool) :
    Except EditError Composition × Session :=
  if s.config.contains n then
    let property : Composition :=
      { editing, environmentsFile := s.environmentsFile
        options := s.config.keyOptions n editing s.environmentsFile s.known
        node := n, defaultRoot := s.config.default.root }
    (.ok property, { s with state := .composing property })
  else (.error .unknownHandle, s)

/-- Apply a draft to what is being composed. A refused draft leaves the session composing. -/
def commit (s : Session) (draft : Draft) : Except EditError NodeRef × Session :=
  match s.state with
  | .idle => (.error .notComposing, s)
  | .composing property =>
    let change : Editing NodeRef :=
      if property.editing then Configuration.edit property.node draft s.markers
      else Configuration.addBelow property.node draft
    match change.apply s.config with
    | (.error e, config) => (.error e, { s with config })
    | (.ok node, config) =>
      (.ok node, ({ s with config }.mark property.node |>.mark node).refresh.cancel)

/-- The question asked before a node is deleted. -/
def deletionPrompt (s : Session) (n : NodeRef) : String :=
  let environment := n.tree = .environments ∧ s.config.environments.level n.handle = 1
  "Are you sure you want to delete this " ++ (if environment then "environment" else "property")
    ++ "?"

/-- Delete a node, without a question. -/
def doDelete (s : Session) (n : NodeRef) : Except EditError Unit × Session :=
  let (result, config) := Editing.apply (Configuration.delete n) s.config
  (result, { s with config })

/-- Delete a node if the question is answered with yes. The result is whether it was deleted. -/
def delete (s : Session) (n : NodeRef) (answer : Confirmation) :
    Except ServiceError Bool × Session :=
  match answer with
  | .failed => (.error (.failed "confirmation dialog"), s)
  | .no => (.ok false, s)
  | .yes =>
    match s.doDelete n with
    | (.ok (), s) => (.ok true, s.refresh.cancel)
    | (.error e, s) => (.error (.edit e), s)

end Session

end LayeredConfig
