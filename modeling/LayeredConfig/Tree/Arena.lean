import LayeredConfig.Tree.Edit

/-!
# Trees held in an arena

A tree is held in slots, one for each handle ever given out. A node knows its parent and its
children by their handles, and a change edits the links of both one after the other. A node that is
removed leaves its slot empty, so its handle never names another node.

`Arena.tree` reads out the tree that the links describe.
-/

namespace LayeredConfig

/-- A node with the handles of its parent and of its children. -/
structure Link where
  data : NodeData
  parent : Option Handle
  children : List Handle
  deriving DecidableEq, Repr

/-- Nodes in slots. -/
structure Arena where
  kind : TreeKind
  root : Handle
  slots : List (Option Link)
  deriving DecidableEq, Repr

namespace Arena

/-- The arena of one node. -/
def withRoot (kind : TreeKind) (data : NodeData) : Arena :=
  { kind, root := 0, slots := [some ⟨data, none, []⟩] }

/-- A new arena. -/
def empty (kind : TreeKind) : Arena := withRoot kind { key := Tree.rootKeyOf kind }

/-! ## Reading -/

/-- The node with a handle. -/
def node? (a : Arena) (h : Handle) : Option Link := a.slots[h]?.join

/-- Whether a handle names a node. -/
def contains (a : Arena) (h : Handle) : Bool := (a.node? h).isSome

/-- The number of nodes. -/
def len (a : Arena) : Nat := a.slots.countP (·.isSome)

/-- The parent of a node. -/
def parent? (a : Arena) (h : Handle) : Option Handle := (a.node? h).bind (·.parent)

/-- The children of a node, in order. -/
def children (a : Arena) (h : Handle) : List Handle := ((a.node? h).map (·.children)).getD []

/-- Whether a node is an array. -/
def isArray (a : Arena) (h : Handle) : Bool :=
  match a.node? h with
  | some n => n.data.type == .array
  | none => false

/-- Whether a node bears one of these keys. -/
def bearsKey (a : Arena) (keys : List String) (h : Handle) : Bool :=
  match a.node? h with
  | some n => keys.contains n.data.key
  | none => false

/-! ## Slots -/

/-- The arena with a node in a new slot. -/
def insert (a : Arena) (n : Link) : Arena := { a with slots := a.slots ++ [some n] }

/-- The arena with a node changed. -/
def update (a : Arena) (h : Handle) (f : Link → Link) : Arena :=
  { a with slots := a.slots.modify h (Option.map f) }

/-- The arena with a slot empty. -/
def erase (a : Arena) (h : Handle) : Arena := { a with slots := a.slots.set h none }

/-! ## Changes -/

/-- The arena with the data of a node changed. -/
def modify (a : Arena) (h : Handle) (f : NodeData → NodeData) : Arena :=
  a.update h fun n => { n with data := f n.data }

/-- The arena with a childless node added as the last child of a node, and its handle. -/
def add (a : Arena) (parent : Handle) (data : NodeData) : Arena × Option Handle :=
  if a.contains parent then
    let h := a.slots.length
    ((a.insert ⟨data, some parent, []⟩).update parent fun n =>
      { n with children := n.children ++ [h] }, some h)
  else (a, none)

/-- The arena with drafts added as the last children of a node. -/
def graftAll (parent : Handle) : Forest NodeData → Arena → Arena
  | .nil, a => a
  | .cons d cs ss, a =>
    match a.add parent d with
    | (a, some h) => graftAll parent ss (graftAll h cs a)
    | (a, none) => graftAll parent ss a

/-- The arena with a draft added as the last child of a node, and the handle of its top. -/
def graft (a : Arena) (parent : Handle) (draft : Draft) : Arena × Option Handle :=
  match a.add parent draft.label with
  | (a, some h) => (graftAll h draft.children a, some h)
  | (a, none) => (a, none)

/-- The arena without a node and what is below it. No link to the node is removed. The way down has
at most `depth` nodes. -/
def free (depth : Nat) (a : Arena) (h : Handle) : Arena :=
  match depth with
  | 0 => a
  | depth + 1 => ((a.children h).foldl (free depth) a).erase h

/-- The arena without nodes and what is below them. -/
def freeAll (a : Arena) (hs : List Handle) : Arena := hs.foldl (free a.slots.length) a

/-- The arena with the children of a node keyed by their positions. -/
def renumber (a : Arena) (h : Handle) : Arena :=
  (a.children h).zipIdx.foldl (fun a (c, position) =>
    a.modify c fun d => { d with key := itemKey position }) a

/-- The arena without some of the children of a node. -/
def unlink (a : Arena) (h : Handle) (doomed : List Handle) : Arena :=
  (a.freeAll doomed).update h fun n =>
    { n with children := n.children.filter (!doomed.contains ·) }

/-- The arena without some of the children of a node. The items that an array keeps are keyed by
their new positions. -/
def removeAll (a : Arena) (h : Handle) (doomed : List Handle) : Arena :=
  let a := a.unlink h doomed
  if a.isArray h then a.renumber h else a

/-- The arena without the children of a node that bear one of these keys, and their number. -/
def removeChildren (a : Arena) (h : Handle) (keys : List String) : Arena × Nat :=
  let doomed := (a.children h).filter (a.bearsKey keys)
  (a.removeAll h doomed, doomed.length)

/-- The arena without a node and what is below it, and whether there was one. The root stays. -/
def remove (a : Arena) (h : Handle) : Arena × Bool :=
  match a.parent? h with
  | some parent => (a.removeAll parent [h], true)
  | none => (a, false)

/-- The arena without anything below a node. -/
def clear (a : Arena) (h : Handle) : Arena :=
  (a.freeAll (a.children h)).update h fun n => { n with children := [] }

/-- The arena with drafts in place of what was below a node. -/
def replace (a : Arena) (h : Handle) (drafts : Forest NodeData) : Arena :=
  graftAll h drafts (a.clear h)

/-! ## The tree of an arena -/

/-- A node with what is below it, as far as `depth` nodes down. -/
def readOut (a : Arena) : Nat → Handle → Option (Rose Entry)
  | 0, _ => none
  | depth + 1, h => (a.node? h).map fun n =>
    ⟨⟨h, n.data⟩, .ofRoots (n.children.filterMap (a.readOut depth))⟩

/-- The tree that the links describe. -/
def tree (a : Arena) : Tree where
  kind := a.kind
  top := (a.readOut a.slots.length a.root).getD ⟨⟨a.root, {}⟩, .nil⟩
  next := a.slots.length

/-- A copy of the subtree at a node. -/
def extract (a : Arena) (h : Handle) : Option Draft :=
  (a.readOut a.slots.length h).map (·.map (·.data))

/-- An arena of its own that shows one node: a root without a key over a copy of the node. -/
def preview? (a : Arena) (h : Handle) : Option Arena :=
  (a.extract h).map fun draft =>
    let shown := empty .detached
    (shown.graft shown.root draft).1

end Arena

/-! ## Runs -/

/-- A change of a tree. -/
inductive TreeChange where
  | add (parent : Handle) (data : NodeData)
  | graft (parent : Handle) (draft : Draft)
  | removeChildren (node : Handle) (keys : List String)
  | remove (node : Handle)
  | clear (node : Handle)
  | replace (node : Handle) (drafts : Forest NodeData)
  | modify (node : Handle) (f : NodeData → NodeData)

/-- The tree after a change. -/
def Tree.perform (t : Tree) : TreeChange → Tree
  | .add parent data => (t.add parent data).1
  | .graft parent draft => (t.graft parent draft).1
  | .removeChildren node keys => (t.removeChildren node keys).1
  | .remove node => (t.remove node).1
  | .clear node => t.clear node
  | .replace node drafts => t.replace node drafts
  | .modify node f => t.modify node f

namespace Arena

/-- The arena after a change. -/
def perform (a : Arena) : TreeChange → Arena
  | .add parent data => (a.add parent data).1
  | .graft parent draft => (a.graft parent draft).1
  | .removeChildren node keys => (a.removeChildren node keys).1
  | .remove node => (a.remove node).1
  | .clear node => a.clear node
  | .replace node drafts => a.replace node drafts
  | .modify node f => a.modify node f

/-- The arena after changes, one after the other. -/
def run (a : Arena) (changes : List TreeChange) : Arena := changes.foldl perform a

end Arena

end LayeredConfig
