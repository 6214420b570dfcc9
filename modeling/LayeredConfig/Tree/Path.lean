import LayeredConfig.Tree.Basic

/-!
# Ways through a tree

Three views of the way from the root to a node: the keys on it, the text that shows it, and the
alignment path, in which every item of an array is taken for the first. `resolve?` follows keys and
`findAligned?` alignment paths.
-/

namespace LayeredConfig

/-- The text of a way, given the text so far: a dot goes before each key that is no position, unless
nothing stands before it. -/
def joinKeys (start : String) (keys : List String) : String :=
  keys.foldl
    (fun text key =>
      if key.startsWith "[" || text.isEmpty then text ++ key else text ++ "." ++ key)
    start

namespace Tree

/-- The keys on the way to a node, without the root's. -/
def keyPath (t : Tree) (h : Handle) : List String :=
  (t.trail h).tail.map (·.data.key)

/-- The text that shows where a node is. A handle without a node shows the root's key. -/
def pathText (t : Tree) (h : Handle) : String :=
  joinKeys t.top.label.data.key (t.keyPath h)

/-- The key of a node as seen from its parent, each item of an array being taken for the first. -/
def alignedKey (parent node : Entry) : String :=
  if parent.data.type = .array then firstItemKey else node.data.key

/-- The alignment path of a node: the keys below the root, first items standing for all. -/
def alignedPath (t : Tree) (h : Handle) : List String :=
  let trail := t.trail h
  List.zipWith alignedKey trail trail.tail

/-- One step down by a key. -/
def stepKey (r : Rose Entry) (key : String) : Option (Rose Entry) :=
  r.children.findRoot? (·.data.key == key)

/-- One step down an alignment path: the first item of an array, else the child with the key. -/
def stepAligned (r : Rose Entry) (key : String) : Option (Rose Entry) :=
  if key = firstItemKey ∧ r.label.data.type = .array then r.children.roots.head? else stepKey r key

/-- The steps of a way, one after the other. -/
def follow (step : Rose Entry → String → Option (Rose Entry)) :
    Rose Entry → List String → Option (Rose Entry)
  | r, [] => some r
  | r, key :: keys => (step r key).bind (follow step · keys)

/-- The node that a way leads to from a node. The empty way leads to the node itself. -/
def walk? (step : Rose Entry → String → Option (Rose Entry)) (t : Tree) (h : Handle)
    (keys : List String) : Option Handle :=
  if keys.isEmpty then some h
  else (t.find? h).bind fun r => (follow step r keys).map (·.label.handle)

/-- The node that keys lead to from a node. -/
def resolve? (t : Tree) (h : Handle) (keys : List String) : Option Handle :=
  t.walk? stepKey h keys

/-- The node that an alignment path leads to from a node. Trees of overrides are sparse, so there
often is none. -/
def findAligned? (t : Tree) (h : Handle) (path : List String) : Option Handle :=
  t.walk? stepAligned h path

/-- The ways to the childless nodes below the root, in pre-order. -/
def leafPaths (t : Tree) : List String :=
  (t.entries.filter fun e => e.handle != t.root && t.isLeaf e.handle).map (t.pathText ·.handle)

end Tree

end LayeredConfig
