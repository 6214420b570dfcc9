import LayeredConfig.Configuration
import LayeredConfig.Reference

/-!
# Alignment

What an edit of the default tree means for the environments: overrides follow the node that they
override, references follow the key that they name, and aliases follow their anchor. An environment
without an override at a path is left alone. Each function also gives the number of nodes it met.
-/

namespace LayeredConfig

namespace Tree

/-- The overrides of the default node at an alignment path, one for each environment that has one.
The root has none. -/
def overrides (envs : Tree) (path : List String) : List Handle :=
  if path.isEmpty then []
  else (envs.children envs.root).filterMap (envs.findAligned? · path)

/-- The environments with `action` run on every override at a path. All overrides are found before
the first action runs. -/
def alignOverrides (envs : Tree) (path : List String) (action : Tree → Handle → Tree) :
    Tree × Nat :=
  let found := envs.overrides path
  (found.foldl action envs, found.length)

/-- Overrides removed. -/
def removeOverrides (envs : Tree) (path : List String) : Tree × Nat :=
  envs.alignOverrides path fun t h => (t.remove h).1

/-- The text of a childless string node after a renaming, if it changes. -/
def renamedText? (t : Tree) (m : Markers) (old new : String) (h : Handle) : Option String :=
  match t.data? h with
  | some { type := .string, value := some (.string text), .. } =>
    if t.isLeaf h then m.renamed? text old new else none
  | _ => none

/-- The tree with the references to `old` in the childless string nodes at and below a node turned
into references to `new`. -/
def renameReferences (t : Tree) (h : Handle) (m : Markers) (old new : String) : Tree × Nat :=
  (t.descendants h).foldl
    (fun (t, count) node =>
      match t.renamedText? m old new node with
      | some text => (t.modify node fun d => { d with value := some (.string text) }, count + 1)
      | none => (t, count))
    (t, 0)

/-- The tree with the data of every node changed. -/
def modifyAll (t : Tree) (f : NodeData → NodeData) : Tree :=
  { t with top := t.top.map fun e => { e with data := f e.data } }

/-- The number of nodes that have an alias. -/
def countAlias (t : Tree) (name : String) : Nat :=
  (t.entries.filter (·.data.aliases.contains name)).length

end Tree

/-- An alias list with `old` turned into `new`, or dropped where `new` is listed already. -/
def renameInList (old new : String) (aliases : List String) : List String :=
  if aliases.contains new then aliases.filter (· ≠ old)
  else aliases.map fun a => if a = old then new else a

namespace Tree

/-- The tree with the alias `old` turned into `new`. -/
def renameAlias (t : Tree) (old new : String) : Tree × Nat :=
  (t.modifyAll fun d =>
      if d.aliases.contains old then { d with aliases := renameInList old new d.aliases } else d,
    t.countAlias old)

/-- The tree without an alias. -/
def removeAlias (t : Tree) (name : String) : Tree × Nat :=
  (t.modifyAll fun d => { d with aliases := d.aliases.filter (· ≠ name) }, t.countAlias name)

end Tree

namespace Configuration

/-- The type of a default node is about to change: its overrides go, and the items of an array. -/
def alignTypeChange (c : Configuration) (h : Handle) : Configuration × Nat :=
  let (envs, count) := c.environments.removeOverrides (c.default.alignedPath h)
  let default := if c.default.isArray h then c.default.clear h else c.default
  ({ default, environments := envs }, count)

/-- A default node is about to be renamed: its overrides are renamed, and the references to it in
both trees. -/
def alignKeyRename (c : Configuration) (h : Handle) (new : String) (m : Markers) :
    Configuration × Nat :=
  match c.default.key? h with
  | none => (c, 0)
  | some old =>
    let (envs, count) := c.environments.alignOverrides (c.default.alignedPath h) fun t found =>
      t.modify found fun d => { d with key := new }
    let (default, _) := c.default.renameReferences c.default.root m old new
    let (envs, _) := envs.renameReferences envs.root m old new
    ({ default, environments := envs }, count)

/-- A default node was deleted: its overrides go. -/
def alignDeletion (c : Configuration) (path : List String) : Configuration × Nat :=
  let (envs, count) := c.environments.removeOverrides path
  ({ c with environments := envs }, count)

/-- An anchor was renamed: aliases in both trees follow. -/
def alignAnchorRename (c : Configuration) (old new : String) : Configuration × Nat :=
  let (envs, inEnvs) := c.environments.renameAlias old new
  let (default, inDefault) := c.default.renameAlias old new
  ({ default, environments := envs }, inEnvs + inDefault)

/-- An anchor is gone: its aliases in both trees go. -/
def alignAnchorRemoval (c : Configuration) (name : String) : Configuration × Nat :=
  let (envs, inEnvs) := c.environments.removeAlias name
  let (default, inDefault) := c.default.removeAlias name
  ({ default, environments := envs }, inEnvs + inDefault)

end Configuration

end LayeredConfig
