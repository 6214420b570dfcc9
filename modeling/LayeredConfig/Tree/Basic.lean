import LayeredConfig.Node

/-!
# Trees of nodes with handles

A `Tree` is an ordered tree whose nodes carry handles. A handle is given out once: `next` is above
every handle ever used, so the handle of a node that was removed never names another node. All
questions about a handle that names no node have an answer: it has no data, no parent, no children,
and level zero.
-/

namespace LayeredConfig

/-- The name of a node within a tree. -/
abbrev Handle := Nat

/-- Which tree a node belongs to. Detached trees stand for themselves. -/
inductive TreeKind where
  | default
  | environments
  | detached
  deriving DecidableEq, Repr, Inhabited

/-- A node with its handle. -/
structure Entry where
  handle : Handle
  data : NodeData
  deriving DecidableEq, Repr, Inhabited

/-- An ordered tree of nodes with handles. -/
structure Tree where
  kind : TreeKind
  top : Rose Entry
  /-- The handle of the next node. -/
  next : Handle
  deriving DecidableEq, Repr

namespace Tree

/-- The tree of one node. -/
def single (kind : TreeKind) (data : NodeData) : Tree :=
  { kind, top := ⟨⟨0, data⟩, .nil⟩, next := 1 }

/-- The key of the root of a new tree. -/
def rootKeyOf : TreeKind → String
  | .default => defaultKey
  | .environments => environmentsKey
  | .detached => ""

/-- A tree without children under its root. -/
def empty (kind : TreeKind) : Tree :=
  single kind { key := rootKeyOf kind }

instance : Inhabited Tree := ⟨empty .detached⟩

/-- The handle of the root. -/
def root (t : Tree) : Handle := t.top.label.handle

/-- The tree as a forest of one. -/
def forest (t : Tree) : Forest Entry := .ofRose t.top

/-- All nodes in pre-order. -/
def entries (t : Tree) : List Entry := t.top.preorder

/-- The number of nodes. -/
def size (t : Tree) : Nat := t.entries.length

/-- The node with a handle, with what is below it. -/
def find? (t : Tree) (h : Handle) : Option (Rose Entry) :=
  t.forest.find? (·.handle == h)

/-- Whether a handle names a node. -/
def contains (t : Tree) (h : Handle) : Bool := (t.find? h).isSome

/-- The nodes from the root down to the one with a handle. -/
def trail (t : Tree) (h : Handle) : List Entry :=
  (t.forest.trail? (·.handle == h)).getD []

/-- The data of a node. -/
def data? (t : Tree) (h : Handle) : Option NodeData :=
  (t.find? h).map (·.label.data)

/-- The key of a node. -/
def key? (t : Tree) (h : Handle) : Option String :=
  (t.data? h).map (·.key)

/-- The parent of a node; the root has none. -/
def parent? (t : Tree) (h : Handle) : Option Handle :=
  (t.trail h).dropLast.getLast?.map (·.handle)

/-- The forest below a node. -/
def below (t : Tree) (h : Handle) : Forest Entry :=
  match t.find? h with
  | some r => r.children
  | none => .nil

/-- The handles of the children of a node, in order. -/
def children (t : Tree) (h : Handle) : List Handle :=
  (t.below h).rootLabels.map (·.handle)

/-- The first child with a key. -/
def child? (t : Tree) (h : Handle) (key : String) : Option Handle :=
  ((t.below h).findRoot? (·.data.key == key)).map (·.label.handle)

/-- Whether a node has no children. -/
def isLeaf (t : Tree) (h : Handle) : Bool := (t.below h).isEmpty

/-- Whether a node is an array. -/
def isArray (t : Tree) (h : Handle) : Bool :=
  match t.data? h with
  | some d => d.type == .array
  | none => false

/-- Whether a node belongs to the default tree. -/
def isDefaultNode (t : Tree) (h : Handle) : Bool :=
  t.kind == .default && t.contains h

/-- Whether a node is an item of an array. -/
def isItem (t : Tree) (h : Handle) : Bool :=
  match t.parent? h with
  | some p => t.isArray p
  | none => false

/-- Whether a node is an object among the items of an array. -/
def isObjectItem (t : Tree) (h : Handle) : Bool :=
  match t.data? h with
  | some d => d.type == .object && t.isItem h
  | none => false

/-- The type of the items of an array, taken from the first one. -/
def itemType? (t : Tree) (h : Handle) : Option ValueType :=
  if t.isArray h then (t.below h).rootLabels.head?.map (·.data.type) else none

/-- The number of nodes above a node. -/
def level (t : Tree) (h : Handle) : Nat := (t.trail h).length - 1

/-- The handles at and below a node, in pre-order. -/
def descendants (t : Tree) (h : Handle) : List Handle :=
  match t.find? h with
  | some r => r.preorder.map (·.handle)
  | none => []

/-- A copy of the subtree at a node. -/
def extract (t : Tree) (h : Handle) : Option Draft :=
  (t.find? h).map (·.map (·.data))

/-- The number of nodes on a longest way from the root down. -/
def depth (t : Tree) : Nat := t.forest.depth

end Tree

end LayeredConfig
