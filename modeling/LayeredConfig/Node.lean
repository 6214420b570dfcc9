import LayeredConfig.Forest
import LayeredConfig.Value

/-!
# Nodes

The data of a node of a configuration, and drafts: nodes with children that belong to no tree yet.
-/

namespace LayeredConfig

/-- The key under which an environment names the environment it inherits from. -/
def inheritsKey : String := "inherits"

/-- The key of the root of the default tree. -/
def defaultKey : String := "default"

/-- The key of the root of the environments tree. -/
def environmentsKey : String := "environments"

/-- The key of the item of an array at a position. -/
def itemKey (position : Nat) : String := s!"[{position}]"

/-- The key that stands for the first item of an array on the way to a node, whatever item the way
takes. Arrays may differ between environments, so ways are compared by first items only. -/
def firstItemKey : String := "[0]"

/-- What a node holds beside its children. -/
structure NodeData where
  key : String := ""
  type : ValueType := .object
  value : Option Scalar := none
  /-- The name under which other nodes may repeat this one. -/
  anchor : Option String := none
  /-- The names of the anchors that this node repeats, earlier ones first. -/
  aliases : List String := []
  comment : Option String := none
  deriving DecidableEq, Repr, Inhabited

namespace NodeData

/-- The data of a scalar node with this value. -/
def ofScalar (key : String) (value : Scalar) : NodeData :=
  { key, type := value.valueType, value := some value }

/-- A node on one line: key, value, type, anchor and aliases. -/
def describe (d : NodeData) : String :=
  let value := match d.value with
    | some v => ": " ++ v.render
    | none => ""
  let anchor := match d.anchor with
    | some a => " &" ++ a
    | none => ""
  d.key ++ value ++ " (" ++ d.type.name ++ ")" ++ anchor
    ++ String.join (d.aliases.map (" *" ++ ·))

end NodeData

/-- A node with children, outside any tree. -/
abbrev Draft := Rose NodeData

namespace Draft

/-- A scalar node. -/
def scalar (key : String) (value : Scalar) : Draft := ⟨.ofScalar key value, .nil⟩

/-- Whether a draft has no children. -/
def isLeaf (d : Draft) : Bool := d.children.isEmpty

end Draft

/-- The forest with its trees keyed by their positions. -/
def numberItems (f : Forest NodeData) : Forest NodeData :=
  f.mapRoots (fun position d => { d with key := itemKey position })

end LayeredConfig
