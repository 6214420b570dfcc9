import LayeredConfig.Configuration
import LayeredConfig.Yaml.Comment
import LayeredConfig.Yaml.Event.Grammar
import LayeredConfig.Yaml.Token.Stream

/-!
# Loading a configuration

A configuration is written as a mapping with the keys `default` and `environments`. Its nodes become
drafts with their anchors, aliases and comments. The merge key `<<` names aliases, or gives entries
that hold where the mapping has none of its own.
-/

namespace LayeredConfig.Yaml

/-- The key under which a mapping names what it repeats. -/
def mergeKey : String := "<<"

/-- Conversion of documents: lines are claimed on the way, and the first fault ends it. -/
abbrev Conversion := StateT Claimed (Except LoadError)

namespace Document

/-- Whether a key is the merge key. Quoted it is a key like others. -/
def isMergeKey : Document → Bool
  | .scalar _ _ text true => text == mergeKey
  | _ => false

/-- The text of a key. -/
def keyText : Document → Except LoadError String
  | .scalar _ _ text _ => .ok text
  | d => .error (.keyNotScalar (d.line + 1))

/-- The names that a merge key lists. -/
def mergeNames (parent : String) : List Document → Except LoadError (List String)
  | [] => .ok []
  | .alias _ name _ :: items => (mergeNames parent items).map (name :: ·)
  | _ :: _ => .error (.mergeListsOther parent)

/-- The names that the value of a merge key gives. A mapping gives none. -/
def mergeSources (parent : String) : Document → Except LoadError (List String)
  | .alias _ name _ => .ok [name]
  | .sequence _ _ items => mergeNames parent items
  | .mapping .. => .ok []
  | .scalar .. => .error (.mergeOfScalar parent)

mutual

/-- The draft of a node. Its comment is left to the node that holds it. -/
def toDraft (s : Source) (key : String) : Document → Conversion Draft
  | .scalar _ anchor text plain =>
    let data : NodeData := match scalarValue text plain with
      | some value => .ofScalar key value
      | none => { key, type := .string }
    pure ⟨{ data with anchor }, .nil⟩
  | .alias _ name type => pure ⟨{ key, type, aliases := [name] }, .nil⟩
  | .mapping _ anchor entries => do
    let (aliases, own) ← entryDrafts s key [] entries
    let children ← inlineDrafts s own entries
    pure ⟨{ key, type := .object, anchor, aliases }, children⟩
  | .sequence _ anchor items => do
    let children ← itemDrafts s 0 items
    pure ⟨{ key, type := .array, anchor }, children⟩

/-- The drafts of the items of a sequence, keyed by their positions. The key is set last: an item
has no name of its own, so a fault within it is told under the empty key. -/
def itemDrafts (s : Source) (position : Nat) : List Document → Conversion (Forest NodeData)
  | [] => pure .nil
  | item :: items => do
    let comment ← modifyGet (s.itemComment item.line)
    let draft ← toDraft s "" item
    let rest ← itemDrafts s (position + 1) items
    pure (.cons { draft.label with key := itemKey position, comment } draft.children rest)

/-- The aliases that a mapping repeats and the drafts of its own entries. `seen` holds the keys of
the entries before. -/
def entryDrafts (s : Source) (parent : String) (seen : List String) :
    List (Document × Document) → Conversion (List String × Forest NodeData)
  | [] => pure ([], .nil)
  | (key, value) :: entries =>
    if key.isMergeKey then do
      let names ← mergeSources parent value
      let (aliases, rest) ← entryDrafts s parent seen entries
      pure (names ++ aliases, rest)
    else do
      let name ← keyText key
      if seen.contains name then throw (.duplicateKey name parent)
      let comment ← modifyGet (s.commentAbove key.line)
      let draft ← toDraft s name value
      let (aliases, rest) ← entryDrafts s parent (name :: seen) entries
      pure (aliases, .cons { draft.label with comment } draft.children rest)

/-- The own entries of a mapping with those that the mappings under its merge keys add. -/
def inlineDrafts (s : Source) (own : Forest NodeData) :
    List (Document × Document) → Conversion (Forest NodeData)
  | [] => pure own
  | (key, value) :: entries =>
    if key.isMergeKey then
      match value with
      | .mapping line anchor inner => do
        let draft ← toDraft s "" (.mapping line anchor inner)
        inlineDrafts s (own.addMissing (·.key) draft.children) entries
      | _ => inlineDrafts s own entries
    else inlineDrafts s own entries

end

/-- The drafts of the entries of one of the two trees. -/
def treeDrafts (s : Source) (key : String) (value : Document) : Conversion (Forest NodeData) :=
  if value.isNull then pure .nil
  else match value with
    | .mapping .. => do
      let draft ← toDraft s key value
      pure draft.children
    | _ => throw (.treeNotMapping key)

end Document

/-- The environments with those that hold nothing, and sequences, made objects. An environment with
a value or an alias is none. -/
def normalizeEnvironments : Forest Entry → Except LoadError (Forest Entry)
  | .nil => .ok .nil
  | .cons e cs ss =>
    if e.data.type = .object then do
      let ss ← normalizeEnvironments ss
      pure (.cons e cs ss)
    else if e.data.value.isNone ∧ e.data.aliases.isEmpty then do
      let ss ← normalizeEnvironments ss
      pure (.cons { e with data := { e.data with type := .object } } cs ss)
    else .error (.environmentNotMapping e.data.key)

/-- The configuration with the entries of a document added. -/
def addEntries (s : Source) (c : Configuration) :
    List (Document × Document) → Conversion Configuration
  | [] => pure c
  | (key, value) :: entries => do
    let name ← key.keyText
    if name = defaultKey then
      let drafts ← value.treeDrafts s name
      addEntries s { c with default := (c.default.graftAll c.default.root drafts).1 } entries
    else if name = environmentsKey then
      let drafts ← value.treeDrafts s name
      let envs := (c.environments.graftAll c.environments.root drafts).1
      let children ← normalizeEnvironments envs.top.children
      addEntries s { c with environments := { envs with top := { envs.top with children } } } entries
    else throw (.unexpectedTopKey name)

/-- The number of line feeds before a mark. -/
def lineOf (cs : List Char) (m : Mark) : Nat := (cs.take m.index).count '\n'

/-- The document of a text with what is known of its lines. -/
def readDocument (text : String) : Except LoadError (Option Document × Source) :=
  let tokens := tokensOf text
  match eventsOf? tokens with
  | none => .error .malformed
  | some events =>
    let cs := text.toList
    let names := tokens.filterMap fun t => match t.kind with
      | .anchor name => some name
      | _ => none
    let a := ({ names } : Assembly).receiveAll (events.map fun (m, e) => (lineOf cs m, e))
    match a.error with
    | some e => .error e
    | none => .ok (a.root, .ofText text a.blocks)

/-- The configuration that a text holds. -/
def load (text : String) : Except LoadError Configuration := do
  let (root, source) ← readDocument text
  match root with
  | none => pure .empty
  | some root =>
    if root.isNull then pure .empty
    else match root with
      | .mapping _ _ entries => (addEntries source .empty entries).run' []
      | _ => throw .documentNotMapping

end LayeredConfig.Yaml
