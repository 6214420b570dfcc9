import LayeredConfig.Error
import LayeredConfig.Tree.Edit
import LayeredConfig.Tree.Path

/-!
# Configurations

A configuration is a pair of trees: the default tree, and the environments tree, whose children are
the environments. Each environment repeats the shape of the default tree as far as it overrides it.
A `NodeRef` names a node of either tree; a dotted path names one by its keys.
-/

namespace LayeredConfig

/-- The name of a node of a configuration. -/
structure NodeRef where
  tree : TreeKind
  handle : Handle
  deriving DecidableEq, Repr, Inhabited

/-- A default tree with the environments that override it. -/
structure Configuration where
  default : Tree
  environments : Tree
  deriving DecidableEq, Repr

namespace Configuration

/-- The configuration without properties and without environments. -/
def empty : Configuration where
  default := .empty .default
  environments := .empty .environments

instance : Inhabited Configuration := ⟨empty⟩

/-- The tree of a kind. -/
def tree? (c : Configuration) : TreeKind → Option Tree
  | .default => some c.default
  | .environments => some c.environments
  | .detached => none

/-- The configuration with the tree of one kind changed. -/
def mapTree (c : Configuration) (kind : TreeKind) (f : Tree → Tree) : Configuration :=
  match kind with
  | .default => { c with default := f c.default }
  | .environments => { c with environments := f c.environments }
  | .detached => c

/-- The data of a node. -/
def data? (c : Configuration) (n : NodeRef) : Option NodeData :=
  (c.tree? n.tree).bind (·.data? n.handle)

/-- Whether a reference names a node. -/
def contains (c : Configuration) (n : NodeRef) : Bool := (c.data? n).isSome

/-- The names of the environments, in order. -/
def environmentNames (c : Configuration) : List String :=
  c.environments.top.children.rootLabels.map (·.data.key)

/-- The first environment with a name. -/
def environment? (c : Configuration) (name : String) : Option Handle :=
  c.environments.child? c.environments.root name

/-- The text that shows where a node is; nothing for detached nodes. -/
def pathText (c : Configuration) (n : NodeRef) : String :=
  match c.tree? n.tree with
  | some t => t.pathText n.handle
  | none => ""

/-- The default tree's nodes, then those of the environments, in pre-order. -/
def refs (c : Configuration) : List NodeRef :=
  c.default.entries.map (⟨.default, ·.handle⟩)
    ++ c.environments.entries.map (⟨.environments, ·.handle⟩)

end Configuration

/-- The keys of one dot-free part of a path: `name[0]` has the keys `name` and `[0]`. `part` holds
the characters of the key that has begun, last first, and `inside` whether a bracket is open. -/
def splitBrackets (inside : Bool) (part : List Char) : List Char → List (List Char)
  | [] => if part.isEmpty then [] else [part.reverse]
  | c :: cs =>
    if inside then
      if c = ']' then (c :: part).reverse :: splitBrackets false [] cs
      else splitBrackets true (c :: part) cs
    else if c = '[' then
      if part.isEmpty then splitBrackets true [c] cs
      else part.reverse :: splitBrackets true [c] cs
    else splitBrackets false (c :: part) cs

/-- The keys of a dotted path. Empty parts are skipped. -/
def splitPath (path : String) : List String :=
  ((path.toList.splitOn '.').flatMap (splitBrackets false [])).map String.ofList

namespace Configuration

/-- The node at a dotted path such as `default.db.host` or `environments.prod.servers[0]`. -/
def resolvePath (c : Configuration) (path : String) : Except EditError NodeRef :=
  let tree? := match splitPath path with
    | first :: keys =>
      if first = defaultKey then some (c.default, keys)
      else if first = environmentsKey then some (c.environments, keys)
      else none
    | [] => none
  let node? := tree?.bind fun (t, keys) => (t.resolve? t.root keys).map (⟨t.kind, ·⟩)
  match node? with
  | some n => .ok n
  | none => .error (.nodeNotFound path)

end Configuration

end LayeredConfig
