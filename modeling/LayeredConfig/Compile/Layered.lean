import LayeredConfig.Node

/-!
# Layers

A layer is a tree of `Layered` nodes. Putting one layer over another merges objects key by key and
lets everything else be replaced, with two exceptions: a scalar remembers every value that was put
over it, so that the value of an upper layer can refer to the one below, and a node remembers every
anchor that a layer gave it.

The items of an array are told apart by position, whatever keys they bear.
-/

namespace LayeredConfig

/-- What kind of node merged layers hold. -/
inductive Shape where
  /-- A scalar with its values, the lowest layer's first. -/
  | scalar (history : List (Option Scalar))
  | object
  | array
  deriving DecidableEq, Repr, Inhabited

/-- A node of merged layers. -/
structure Layered where
  key : String
  anchors : List String := []
  aliases : List String := []
  shape : Shape
  deriving DecidableEq, Repr, Inhabited

namespace Layered

/-- A node of a single layer. -/
def ofData (d : NodeData) : Layered where
  key := d.key
  anchors := d.anchor.toList
  aliases := d.aliases
  shape := match d.type with
    | .string | .boolean | .number => .scalar [d.value]
    | .object => .object
    | .array => .array

end Layered

/-- A forest as a single layer. Scalars have nothing below them. -/
def Forest.layered : Forest NodeData → Forest Layered
  | .nil => .nil
  | .cons d cs ss =>
    .cons (.ofData d) (if d.type.isScalar then .nil else cs.layered) ss.layered

/-- A tree as a single layer. -/
def Rose.layered (r : Rose NodeData) : Rose Layered :=
  ⟨.ofData r.label, if r.label.type.isScalar then .nil else r.children.layered⟩

namespace Layered

/-- The anchors of a node after another is put over it. -/
def joinAnchors (lower upper : List String) : List String :=
  upper.foldl (fun names a => if names.contains a then names else names ++ [a]) lower

/-- The node with another put over it, apart from what is below. An object keeps its aliases unless
the upper one names its own. -/
def under (lower upper : Layered) : Layered :=
  let anchors := joinAnchors lower.anchors upper.anchors
  match lower.shape, upper.shape with
  | .object, .object =>
    { lower with
      anchors
      aliases := if upper.aliases.isEmpty then lower.aliases else upper.aliases }
  | .scalar history, .scalar values =>
    { lower with anchors, aliases := upper.aliases, shape := .scalar (history ++ values) }
  | _, shape => { lower with anchors, aliases := upper.aliases, shape }

end Layered

/-- The forest with `h` applied to the first tree with a key, or with a tree added at the end. -/
def Forest.updateRoot (key : String) (h : Rose Layered → Rose Layered) (fresh : Rose Layered) :
    Forest Layered → Forest Layered
  | .nil => .ofRose fresh
  | .cons l cs ss =>
    if l.key = key then
      let r := h ⟨l, cs⟩
      .cons r.label r.children ss
    else .cons l cs (ss.updateRoot key h fresh)

/-- The entries of an object with those of another put over them. -/
def Forest.overlay (lower : Forest Layered) : Forest Layered → Forest Layered
  | .nil => lower
  | .cons u ucs uss =>
    let merge := fun (l : Rose Layered) =>
      (⟨l.label.under u,
        if l.label.shape = .object ∧ u.shape = .object then l.children.overlay ucs else ucs⟩
        : Rose Layered)
    (lower.updateRoot u.key merge ⟨u, ucs⟩).overlay uss

/-- A tree with another put over it. -/
def Rose.overlay (lower upper : Rose Layered) : Rose Layered :=
  ⟨lower.label.under upper.label,
    if lower.label.shape = .object ∧ upper.label.shape = .object then
      lower.children.overlay upper.children
    else upper.children⟩

/-- An object without the entries of a key. -/
def Rose.without (key : String) (r : Rose Layered) : Rose Layered :=
  if r.label.shape = .object then { r with children := r.children.filterRoots (·.key != key) }
  else r

/-! ## Places -/

/-- One step down: to the entry of an object or to the item of an array. -/
inductive Step where
  | key (name : String)
  | item (position : Nat)
  deriving DecidableEq, Repr

/-- The way from the root to a node. -/
abbrev Place := List Step

/-- The text of a place within an environment. -/
def Place.text (environment : String) (place : Place) : String :=
  place.foldl
    (fun text step => match step with
      | .key name => text ++ "." ++ name
      | .item position => text ++ itemKey position)
    environment

/-- The step from a node of this shape to a child at a position. -/
def Shape.step (parent : Shape) (position : Nat) (child : Layered) : Step :=
  match parent with
  | .array => .item position
  | _ => .key child.key

/-- The child that a step leads to. -/
def Rose.child? (r : Rose Layered) (step : Step) : Option (Rose Layered) :=
  match r.label.shape, step with
  | .object, .key name => r.children.findRoot? (·.key == name)
  | .array, .item position => r.children.roots[position]?
  | _, _ => none

/-- The node at a place. -/
def Rose.at? (r : Rose Layered) : Place → Option (Rose Layered)
  | [] => some r
  | step :: place => (r.child? step).bind (·.at? place)

end LayeredConfig
