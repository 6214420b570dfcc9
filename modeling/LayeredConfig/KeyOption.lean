import LayeredConfig.Configuration

/-!
# Keys on offer

Environments repeat the shape of the default tree, so the keys that may be added below a node of an
environment are those of the default node at the same alignment path that are not there yet. Below
the root of the environments the known environment names are on offer, and below an array the next
position. Nodes of the default tree take any key, which is shown by an empty offer.
-/

namespace LayeredConfig

/-- A key on offer with the type of its node. -/
structure KeyOption where
  key : String
  type : ValueType
  deriving DecidableEq, Repr, Inhabited

namespace Configuration

/-- The keys met on the way up from a node to its environment, every item of an array being taken for
the first. The nodes of the way come first to last, the root of the tree last; an environment is a
node with nothing but the root above it. -/
def climb : List Entry → List String
  | node :: parent :: above =>
    if above.isEmpty then [] else Tree.alignedKey parent node :: climb (parent :: above)
  | _ => []

/-- The path of a node of the environments inside its environment. -/
def schemaPath (c : Configuration) (h : Handle) : List String :=
  (climb (c.environments.trail h).reverse).reverse

/-- The keys of the default node that a node of the environments overrides. -/
def schemaOptions (c : Configuration) (h : Handle) : List KeyOption :=
  match c.default.findAligned? c.default.root (c.schemaPath h) with
  | some d => (c.default.below d).rootLabels.map fun e => ⟨e.data.key, e.data.type⟩
  | none => []

/-- The keys on offer below a node of the environments, or for the node itself when it is edited.
With `environmentsFile`, environments may have any name. -/
def environmentOptions (c : Configuration) (h : Handle) (data : NodeData)
    (editing environmentsFile : Bool) (known : List String) : List KeyOption :=
  let envs := c.environments
  let existing := (envs.below h).rootLabels.map (·.data.key)
  if editing then [⟨data.key, data.type⟩]
  else if envs.level h = 0 then
    if environmentsFile then []
    else (known.filter (!existing.contains ·)).map (⟨·, .object⟩)
  else if envs.isArray h then
    [⟨itemKey existing.length, (envs.itemType? h).getD .string⟩]
  else
    let inherits :=
      if envs.level h = 1 && !existing.contains inheritsKey then [⟨inheritsKey, .string⟩] else []
    inherits ++ (c.schemaOptions h).filter (!existing.contains ·.key)

/-- The keys on offer below a node, or for the node itself when it is edited. -/
def keyOptions (c : Configuration) (n : NodeRef) (editing environmentsFile : Bool)
    (known : List String) : List KeyOption :=
  if n.tree = .environments then
    match c.environments.data? n.handle with
    | some data => c.environmentOptions n.handle data editing environmentsFile known
    | none => []
  else []

end Configuration

end LayeredConfig
