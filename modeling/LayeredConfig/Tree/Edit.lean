import LayeredConfig.Tree.Basic

/-!
# Changing a tree

Every change is one of two: `modify` changes the data of one node, `adjust` the forest below one
node. Both leave a tree alone when the handle names no node.
-/

namespace LayeredConfig

/-- The forest with handles given out in pre-order from `next` on, and the handle after them. -/
def Forest.number (next : Handle) : Forest NodeData → Forest Entry × Handle
  | .nil => (.nil, next)
  | .cons d cs ss =>
    let (cs, afterChildren) := cs.number (next + 1)
    let (ss, afterAll) := ss.number afterChildren
    (.cons ⟨next, d⟩ cs ss, afterAll)

namespace Tree

/-- The tree with the data of one node changed. -/
def modify (t : Tree) (h : Handle) (f : NodeData → NodeData) : Tree :=
  { t with top := t.top.relabel (·.handle == h) fun e => { e with data := f e.data } }

/-- The tree with the forest below one node changed. -/
def adjust (t : Tree) (h : Handle) (f : Forest Entry → Forest Entry) : Tree :=
  { t with top := t.top.adjust (·.handle == h) f }

/-- The tree with drafts added as the last children of a node, and the handles of their tops. -/
def graftAll (t : Tree) (parent : Handle) (drafts : Forest NodeData) : Tree × List Handle :=
  if t.contains parent then
    let (added, next) := drafts.number t.next
    ({ t.adjust parent (· ++ added) with next }, added.rootLabels.map (·.handle))
  else (t, [])

/-- The tree with a draft added as the last child of a node, and the handle of its top. -/
def graft (t : Tree) (parent : Handle) (draft : Draft) : Tree × Option Handle :=
  let (t, handles) := t.graftAll parent (.ofRose draft)
  (t, handles.head?)

/-- The tree with a childless node added as the last child of a node, and its handle. -/
def add (t : Tree) (parent : Handle) (data : NodeData) : Tree × Option Handle :=
  t.graft parent ⟨data, .nil⟩

/-- The forest with its trees keyed by their positions. -/
def renumbered (f : Forest Entry) : Forest Entry :=
  f.mapRoots fun position e => { e with data := { e.data with key := itemKey position } }

/-- The tree with the children of a node that fail `keep` removed. The items that an array keeps
are keyed by their new positions. -/
def keepChildren (t : Tree) (h : Handle) (keep : Entry → Bool) : Tree :=
  let array := t.isArray h
  t.adjust h fun f =>
    let kept := f.filterRoots keep
    if array then renumbered kept else kept

/-- The tree without the children of a node that bear one of these keys, and their number. -/
def removeChildren (t : Tree) (h : Handle) (keys : List String) : Tree × Nat :=
  let doomed := fun (e : Entry) => keys.contains e.data.key
  (t.keepChildren h (!doomed ·), ((t.below h).rootLabels.filter doomed).length)

/-- The tree without a node and what is below it, and whether there was one. The root stays. -/
def remove (t : Tree) (h : Handle) : Tree × Bool :=
  match t.parent? h with
  | some parent => (t.keepChildren parent (·.handle != h), true)
  | none => (t, false)

/-- The tree without anything below a node. -/
def clear (t : Tree) (h : Handle) : Tree :=
  t.adjust h fun _ => .nil

/-- The tree with drafts in place of what was below a node. -/
def replace (t : Tree) (h : Handle) (drafts : Forest NodeData) : Tree :=
  ((t.clear h).graftAll h drafts).1

/-- The tree with these drafts under a root of the given kind. -/
def ofDrafts (kind : TreeKind) (drafts : Forest NodeData) : Tree :=
  let t := empty kind
  (t.graftAll t.root drafts).1

/-- A tree of its own that shows one node: a root without a key over a copy of the node. -/
def preview? (t : Tree) (h : Handle) : Option Tree :=
  (t.extract h).map fun draft => ofDrafts .detached (.ofRose draft)

end Tree

end LayeredConfig
