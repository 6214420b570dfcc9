import LayeredConfig.Compile.Layered
import LayeredConfig.Error
import LayeredConfig.Reference

/-!
# Substitution of references

A reference in a string names a scalar of the nearest enclosing object that has an entry of that
name, searched outward to the root. A value that names its own key means the value of the layer
below. Where nothing of that name is in scope, `env` stands for the environment.

A `Slot` is one value of one scalar. While a slot is read it is not available, so reading ends; a
reference that needs it is a cycle.
-/

namespace LayeredConfig

/-- The name that stands for the environment where no property bears it. -/
def environmentName : String := "env"

/-- One value of a scalar: the one that a layer gave it, counted among those that gave one. -/
structure Slot where
  place : Place
  layer : Nat
  deriving DecidableEq, Repr

/-- The slots of the scalars below a place. -/
def Forest.slots (parent : Shape) (place : Place) (position : Nat) : Forest Layered → List Slot
  | .nil => []
  | .cons l cs ss =>
    let here := place ++ [parent.step position l]
    let own := match l.shape with
      | .scalar history => (List.range history.length).map (⟨here, ·⟩)
      | _ => []
    own ++ cs.slots l.shape here 0 ++ ss.slots parent place (position + 1)

/-- The slots of the scalars of a document. -/
def Rose.slots (r : Rose Layered) : List Slot :=
  let own := match r.label.shape with
    | .scalar history => (List.range history.length).map (⟨[], ·⟩)
    | _ => []
  own ++ r.children.slots r.label.shape [] 0

/-- What a reference refers to. -/
inductive Target where
  | slot (slot : Slot)
  | environment
  deriving DecidableEq, Repr

/-- A document in which references are substituted. -/
structure Substituting where
  environment : String
  markers : Markers
  document : Rose Layered

namespace Substituting

/-- The value of a slot, with its references. -/
def value? (e : Substituting) (s : Slot) : Option Scalar :=
  match e.document.at? s.place with
  | some ⟨{ shape := .scalar history, .. }, _⟩ => (history[s.layer]?).join
  | _ => none

/-- The entry with a name of the object at a place. -/
def entry? (e : Substituting) (scope : Place) (name : String) : Option (Rose Layered) :=
  (e.document.at? scope).bind (·.child? (.key name))

/-- The places that enclose a place, the nearest first. -/
def enclosing (place : Place) : List Place :=
  (List.range place.length).reverse.map (place.take ·)

/-- The nearest entry in scope with a name, and its place. -/
def nearest? (e : Substituting) (place : Place) (name : String) : Option (Place × Rose Layered) :=
  (enclosing place).findSome? fun scope =>
    (e.entry? scope name).map (scope ++ [.key name], ·)

/-- What a name refers to in the text of a slot. -/
def target (e : Substituting) (s : Slot) (name : String) : Except CompileError Target :=
  match e.nearest? s.place name with
  | some (place, r) =>
    match r.label.shape with
    | .scalar history =>
      if place ≠ s.place then .ok (.slot ⟨place, history.length - 1⟩)
      else if s.layer = 0 then .error (.unresolvedVariable name (s.place.text e.environment))
      else .ok (.slot ⟨place, s.layer - 1⟩)
    | _ => .error (.nonScalarVariable name (s.place.text e.environment))
  | none =>
    if name = environmentName then .ok .environment
    else .error (.unresolvedVariable name (s.place.text e.environment))

/-- The text of a value within another; a missing value has none. -/
def display : Option Scalar → String
  | some v => v.render
  | none => ""

/-- The value of a slot with its references substituted by slots that are available. -/
def read (e : Substituting) (available : List Slot) (s : Slot) :
    Except CompileError (Option Scalar) :=
  match e.value? s with
  | some (.string text) => do
    let text ← e.markers.substitute text fun name => do
      match ← e.target s name with
      | .environment => pure e.environment
      | .slot next =>
        if _ : next ∈ available then
          let value ← e.read (available.erase next) next
          pure (display value)
        else throw (.variableCycle name (s.place.text e.environment))
    pure (some (.string text))
  | value => pure value
termination_by available.length
decreasing_by
  have := List.length_erase_of_mem ‹next ∈ available›
  have := List.length_pos_of_mem ‹next ∈ available›
  omega

end Substituting

/-- The data of a node without layers, `read` giving the value of a slot. -/
def Layered.resolved (read : Slot → Except CompileError (Option Scalar)) (place : Place)
    (l : Layered) : Except CompileError NodeData :=
  match l.shape with
  | .object => pure { key := l.key, type := .object }
  | .array => pure { key := l.key, type := .array }
  | .scalar history => do
    match ← read ⟨place, history.length - 1⟩ with
    | some value => pure (.ofScalar l.key value)
    | none => pure { key := l.key, type := .string }

/-- The nodes below a place without layers. The items of an array are keyed by their positions. -/
def Forest.resolved (read : Slot → Except CompileError (Option Scalar)) (parent : Shape)
    (place : Place) (position : Nat) : Forest Layered → Except CompileError (Forest NodeData)
  | .nil => pure .nil
  | .cons l cs ss => do
    let here := place ++ [parent.step position l]
    let data ← l.resolved read here
    let children ← cs.resolved read l.shape here 0
    let rest ← ss.resolved read parent place (position + 1)
    pure (.cons data (if l.shape = .array then numberItems children else children) rest)

namespace Substituting

/-- The document without layers and references. -/
def resolved (e : Substituting) : Except CompileError Draft := do
  let slots := e.document.slots
  let read := fun (s : Slot) => e.read (slots.erase s) s
  let data ← e.document.label.resolved read []
  let children ← e.document.children.resolved read e.document.label.shape [] 0
  pure ⟨data, children⟩

end Substituting

end LayeredConfig
