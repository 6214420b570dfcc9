import LayeredConfig.Compile.Layered
import LayeredConfig.Configuration
import LayeredConfig.Error

/-!
# Expansion of aliases

An alias stands for the content of its anchor, as it is once all layers are merged. The first
declaration of a name counts: those of the merged document, in document order, then those of the
default tree and of the environments, which matter for anchors outside the lineage.

Within the expansion of a name the name itself is not available, so every expansion ends; an alias
that needs it refers back to itself.
-/

namespace LayeredConfig

/-- Where the content of an anchor is found. -/
inductive AnchorSource where
  | place (place : Place)
  | content (content : Rose Layered)
  deriving Repr

/-- The anchors of nodes below a place, in document order. -/
def Forest.anchorPlaces (parent : Shape) (place : Place) (position : Nat) :
    Forest Layered → List (String × AnchorSource)
  | .nil => []
  | .cons l cs ss =>
    let here := place ++ [parent.step position l]
    l.anchors.map (·, .place here) ++ cs.anchorPlaces l.shape here 0
      ++ ss.anchorPlaces parent place (position + 1)

/-- The anchors of a document, in document order. -/
def Rose.anchorPlaces (r : Rose Layered) : List (String × AnchorSource) :=
  r.label.anchors.map (·, .place []) ++ r.children.anchorPlaces r.label.shape [] 0

namespace Tree

/-- The anchors of a tree, each with the content it has there. -/
def anchorContents (t : Tree) : List (String × AnchorSource) :=
  (t.forest.map (·.data)).subtrees.filterMap fun r =>
    r.label.anchor.map (·, .content r.layered)

end Tree

/-- A document in which aliases are expanded. -/
structure Expanding where
  /-- The environment, for messages. -/
  environment : String
  document : Rose Layered
  anchors : List (String × AnchorSource)

namespace Expanding

/-- The merged document of an environment, with the anchors of the configuration. -/
def ofConfiguration (c : Configuration) (environment : String) (document : Rose Layered) :
    Expanding where
  environment
  document
  anchors := document.anchorPlaces ++ c.default.anchorContents ++ c.environments.anchorContents

/-- The content of the anchor with a name. -/
def content? (e : Expanding) (name : String) : Option (Rose Layered) :=
  match e.anchors.lookup name with
  | some (.place place) => e.document.at? place
  | some (.content content) => some content
  | none => none

/-- The names of the anchors, each once. -/
def names (e : Expanding) : List String := (e.anchors.map (·.1)).eraseDups

end Expanding

namespace Layered

/-- A node without anchors and aliases. -/
def plain (l : Layered) : Layered := { key := l.key, shape := l.shape }

end Layered

/-- A tree under another key. -/
def Rose.withKey (key : String) (r : Rose Layered) : Rose Layered :=
  { r with label := { r.label with key } }

/-- The entries that the objects among these trees supply, earlier ones first. -/
def suppliedEntries (expansions : List (Rose Layered)) : Forest Layered :=
  expansions.foldl
    (fun entries r =>
      if r.label.shape = .object then entries.addMissing (·.key) r.children else entries)
    .nil

/-- A node with its aliases and what is below it expanded. A scalar or an empty array is its first
alias, and an object without entries its only one. Otherwise the entries of an object go before
those that its aliases supply. -/
def Layered.expanded (l : Layered) (expansions : List (Rose Layered)) (children : Forest Layered) :
    Rose Layered :=
  let own : Rose Layered := ⟨l.plain, children⟩
  match l.shape, children, expansions with
  | .scalar _, _, e :: _ => e.withKey l.key
  | .array, .nil, e :: _ => e.withKey l.key
  | .object, .nil, [e] => e.withKey l.key
  | .object, _, _ => ⟨l.plain, (suppliedEntries expansions).putAll (·.key) children⟩
  | _, _, _ => own

/-- Nodes below a place with their aliases expanded by `expandAlias`. -/
def Forest.expanded (expandAlias : Place → String → Except CompileError (Rose Layered))
    (parent : Shape) (place : Place) (position : Nat) :
    Forest Layered → Except CompileError (Forest Layered)
  | .nil => pure .nil
  | .cons l cs ss => do
    let here := place ++ [parent.step position l]
    let expansions ← l.aliases.mapM (expandAlias here)
    let children ← cs.expanded expandAlias l.shape here 0
    let r := l.expanded expansions children
    let rest ← ss.expanded expandAlias parent place (position + 1)
    pure (.cons r.label r.children rest)

/-- The node at a place with its aliases expanded by `expandAlias`. -/
def Rose.expanded (expandAlias : Place → String → Except CompileError (Rose Layered))
    (place : Place) (r : Rose Layered) : Except CompileError (Rose Layered) := do
  let expansions ← r.label.aliases.mapM (expandAlias place)
  let children ← r.children.expanded expandAlias r.label.shape place 0
  pure (r.label.expanded expansions children)

namespace Expanding

/-- The content of an alias at a place, itself expanded with the names that are available. -/
def expandAlias (e : Expanding) (available : List String) (place : Place) (name : String) :
    Except CompileError (Rose Layered) :=
  match e.content? name with
  | none => .error (.unresolvedAlias name (place.text e.environment))
  | some content =>
    if _ : name ∈ available then
      content.expanded (fun here inner => e.expandAlias (available.erase name) here inner) place
    else .error (.aliasCycle name (place.text e.environment))
termination_by available.length
decreasing_by
  have := List.length_erase_of_mem ‹name ∈ available›
  have := List.length_pos_of_mem ‹name ∈ available›
  omega

/-- The document with its aliases expanded. -/
def expanded (e : Expanding) : Except CompileError (Rose Layered) :=
  e.document.expanded (e.expandAlias e.names) []

end Expanding

end LayeredConfig
