import LayeredConfig.Compile.Expansion
import LayeredConfig.Compile.Lineage
import LayeredConfig.Compile.Substitution
import LayeredConfig.Yaml.Written

/-!
# Compiling an environment

The layers of an environment are the default tree and the environments of its lineage, the most
distant ancestor first. They are merged; then aliases are expanded, so that an alias has the final
content of its anchor; then references are substituted.
-/

namespace LayeredConfig

namespace Configuration

/-- The layer of an environment: what it says beside what it inherits from. -/
def layer (c : Configuration) (h : Handle) : Rose Layered :=
  match c.environments.extract h with
  | some r => r.layered.without inheritsKey
  | none => ⟨.ofData { type := .string }, .nil⟩

/-- The default tree with the layers of a lineage put over it, one after the other. -/
def merged (c : Configuration) (lineage : List Handle) : Rose Layered :=
  (lineage.map c.layer).foldl .overlay (c.default.top.map (·.data)).layered

/-- The properties of an environment with everything resolved. A document that is no object has
none. -/
def compileDraft (c : Configuration) (m : Markers) (environment : String) :
    Except CompileError (Forest NodeData) := do
  let lineage ← c.lineage environment
  let expanded ← (Expanding.ofConfiguration c environment (c.merged lineage)).expanded
  let draft ← Substituting.resolved ⟨environment, m, expanded⟩
  pure (if draft.label.type = .object then draft.children else .nil)

/-- An environment as a tree of its own. -/
def compile (c : Configuration) (m : Markers) (environment : String) : Except CompileError Tree :=
  (c.compileDraft m environment).map (Tree.ofDrafts .detached)

/-- An environment as a document. -/
def compileText (c : Configuration) (m : Markers) (environment : String) :
    Except CompileError String := do
  let tree ← c.compile m environment
  Yaml.emitTree false tree

end Configuration

end LayeredConfig
