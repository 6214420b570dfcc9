import LayeredConfig.Tree.Arena
import LayeredConfig.Tree.Path

/-!
# Walks over an arena

The nodes of an arena are visited by loops over a stack of handles, children pushed in reverse so
that the first is on top. Nothing in a loop keeps it from going round where links do: a loop that
has not ended after more steps than there are slots has the answer `none`.

An alignment path is read off on the way up from a node and followed on the way down from the root.
-/

namespace LayeredConfig.Arena

/-- Whether a node has no children. -/
def isLeaf (a : Arena) (h : Handle) : Bool := (a.children h).isEmpty

/-- A number of steps in which a loop can take up every slot and end. -/
def steps (a : Arena) : Nat := a.slots.length + 1

/-! ## In pre-order -/

/-- The handles that are put out after `out` with this stack. -/
def descendantsFrom (a : Arena) : Nat → List Handle → List Handle → Option (List Handle)
  | _, out, [] => some out
  | 0, _, _ :: _ => none
  | steps + 1, out, h :: stack =>
    if a.contains h then a.descendantsFrom steps (out ++ [h]) (a.children h ++ stack)
    else a.descendantsFrom steps out stack

/-- The handles at and below a node, in pre-order. -/
def descendants (a : Arena) (h : Handle) : Option (List Handle) := a.descendantsFrom a.steps [] [h]

/-- The next node in pre-order, with the stack after it. -/
def nextPreorder (a : Arena) : List Handle → Option ((Handle × Link) × List Handle)
  | [] => none
  | h :: stack =>
    match a.node? h with
    | some n => some ((h, n), n.children ++ stack)
    | none => a.nextPreorder stack

/-! ## In post-order -/

/-- The next node in post-order, with the stack after it. A handle is on the stack with whether what
is below it has been pushed. -/
def nextPostorder (a : Arena) :
    Nat → List (Handle × Bool) → Option (Option ((Handle × Link) × List (Handle × Bool)))
  | _, [] => some none
  | 0, _ :: _ => none
  | steps + 1, (h, visited) :: stack =>
    match a.node? h with
    | some n =>
      if visited then some (some ((h, n), stack))
      else a.nextPostorder steps (n.children.map (·, false) ++ (h, true) :: stack)
    | none => a.nextPostorder steps stack

/-! ## To the end -/

/-- What an iterator gives until it has no more. -/
def collect {α σ : Type} (next : σ → Option (Option (α × σ))) : Nat → σ → Option (List α)
  | 0, _ => none
  | steps + 1, s => do
    match ← next s with
    | some (x, s) => pure (x :: (← collect next steps s))
    | none => pure []

/-- All nodes in pre-order. -/
def iter (a : Arena) : Option (List (Handle × Link)) :=
  collect (fun stack => some (a.nextPreorder stack)) a.steps [a.root]

/-- All nodes in post-order. -/
def iterPostorder (a : Arena) : Option (List (Handle × Link)) :=
  collect (a.nextPostorder a.steps) a.steps [(a.root, false)]

/-! ## Levels and leaves -/

/-- The number of nodes on a longest way from a node down. -/
def depthBelow (a : Arena) : Nat → Handle → Option Nat
  | 0, _ => none
  | steps + 1, h =>
    if a.contains h then do
      let depths ← (a.children h).mapM (a.depthBelow steps)
      pure (1 + depths.max?.getD 0)
    else pure 0

/-- The number of nodes on a longest way from the root down. -/
def depth (a : Arena) : Option Nat := a.depthBelow a.steps a.root

/-- The keys on the way up from a node, before `keys`. The root's is none of them. -/
def keysAbove (a : Arena) : Nat → List String → Handle → Option (List String)
  | 0, _, _ => none
  | steps + 1, keys, h =>
    match a.parent? h with
    | some parent =>
      match a.node? h with
      | some n => a.keysAbove steps (n.data.key :: keys) parent
      | none => a.keysAbove steps keys parent
    | none => some keys

/-- The keys on the way to a node, without the root's. -/
def keyPath (a : Arena) (h : Handle) : Option (List String) := a.keysAbove a.steps [] h

/-- The text that shows where a node is. -/
def pathText (a : Arena) (h : Handle) : Option String :=
  let rootKey := ((a.node? a.root).map (·.data.key)).getD ""
  (a.keyPath h).map (joinKeys rootKey)

/-- The texts of the ways to the childless nodes below the root, in pre-order. -/
def leafPaths (a : Arena) : Option (List String) := do
  let nodes ← a.iter
  (nodes.filter fun (h, _) => h != a.root && a.isLeaf h).mapM fun (h, _) => a.pathText h

/-! ## Alignment paths -/

/-- The key of a node. -/
def key? (a : Arena) (h : Handle) : Option String := (a.node? h).map (·.data.key)

/-- The first child of a node with a key. -/
def child? (a : Arena) (h : Handle) (key : String) : Option Handle :=
  (a.children h).find? fun c => a.key? c == some key

/-- The keys on the way up from a node, before `path`, each item of an array being taken for the
first. The root's is none of them. -/
def alignedAbove (a : Arena) : Nat → List String → Handle → Option (List String)
  | 0, _, _ => none
  | steps + 1, path, h =>
    match a.parent? h with
    | some parent =>
      if a.isArray parent then a.alignedAbove steps (firstItemKey :: path) parent
      else match a.key? h with
        | some key => a.alignedAbove steps (key :: path) parent
        | none => a.alignedAbove steps path parent
    | none => some path

/-- The alignment path of a node. -/
def alignedPath (a : Arena) (h : Handle) : Option (List String) := a.alignedAbove a.steps [] h

/-- One step down an alignment path: the first item of an array, else the child with the key. -/
def alignedChild? (a : Arena) (h : Handle) (key : String) : Option Handle :=
  if key = firstItemKey ∧ a.isArray h then (a.children h).head? else a.child? h key

/-- The node that an alignment path leads to from a node. -/
def findAligned? (a : Arena) : Handle → List String → Option Handle
  | h, [] => some h
  | h, key :: path => (a.alignedChild? h key).bind (a.findAligned? · path)

end LayeredConfig.Arena
