import LayeredConfig.Error
import LayeredConfig.Yaml.Event
import LayeredConfig.Yaml.PlainScalar

/-!
# Documents

A `Document` is the tree that events tell, with the line on which each node starts. `Assembly` builds
it: a stack of the collections that are open, each with what it holds so far, and a mapping also with
the key that waits for its value. Events tell anchors by number; their names come from the tokens,
the n-th anchor declared being the n-th anchor token of the text.

An alias has the type of the latest declaration of its name before it.
-/

namespace LayeredConfig.Yaml

/-- A node of a document. -/
inductive Document where
  | scalar (line : Nat) (anchor : Option String) (text : String) (plain : Bool)
  | alias (line : Nat) (name : String) (type : ValueType)
  | mapping (line : Nat) (anchor : Option String) (entries : List (Document × Document))
  | sequence (line : Nat) (anchor : Option String) (items : List Document)
  deriving Repr, Inhabited

namespace Document

/-- The line on which a node starts, the first being zero. -/
def line : Document → Nat
  | .scalar line .. | .alias line .. | .mapping line .. | .sequence line .. => line

/-- The value of a scalar: a quoted one is a string. -/
def scalarValue (text : String) (plain : Bool) : Option Scalar :=
  if plain then PlainScalar.read text else some (.string text)

/-- Whether a node is a plain scalar that stands for nothing. -/
def isNull : Document → Bool
  | .scalar _ _ text true => (PlainScalar.read text).isNone
  | _ => false

end Document

/-- A collection that is open. -/
inductive Frame where
  /-- A mapping with its entries, last first, and the key that waits for its value. -/
  | mapping (line : Nat) (anchor : Option String) (entries : List (Document × Document))
      (key : Option Document)
  /-- A sequence with its items, last first. -/
  | sequence (line : Nat) (anchor : Option String) (items : List Document)
  deriving Repr, Inhabited

namespace Frame

/-- The frame with one more node. -/
def add (node : Document) : Frame → Frame
  | .mapping line anchor entries none => .mapping line anchor entries (some node)
  | .mapping line anchor entries (some key) => .mapping line anchor ((key, node) :: entries) none
  | .sequence line anchor items => .sequence line anchor (node :: items)

/-- The collection that a frame becomes when it ends. -/
def close : Frame → Document
  | .mapping line anchor entries _ => .mapping line anchor entries.reverse
  | .sequence line anchor items => .sequence line anchor items.reverse

end Frame

/-- The lines from the start of a literal or folded scalar up to the next event. -/
structure BlockRange where
  first : Nat
  stop : Nat
  deriving DecidableEq, Repr

/-- A document that is being built. -/
structure Assembly where
  /-- The names of the anchors to come. -/
  names : List String
  /-- The names of the anchors met, by number. -/
  anchors : List (Nat × String) := []
  /-- The types of the anchors met, the latest declaration first. -/
  types : List (String × ValueType) := []
  /-- The open collections, innermost first. -/
  stack : List Frame := []
  root : Option Document := none
  blocks : List BlockRange := []
  /-- The line of a literal or folded scalar that the last event told. -/
  openBlock : Option Nat := none
  error : Option LoadError := none
  deriving Inhabited

namespace Assembly

/-- The assembly with an anchor declared, and its name. -/
def declare (a : Assembly) (number : Nat) (type : ValueType) : Option String × Assembly :=
  if number = 0 then (none, a)
  else match a.anchors.lookup number with
    | some name => (some name, a)
    | none => match a.names with
      | [] => (none, { a with error := some (.anchorWithoutName number) })
      | name :: names =>
        (some name,
          { a with names, anchors := (number, name) :: a.anchors, types := (name, type) :: a.types })

/-- The assembly with one more node. -/
def insert (a : Assembly) (node : Document) : Assembly :=
  match a.stack with
  | [] => { a with root := a.root.or (some node) }
  | frame :: frames => { a with stack := frame.add node :: frames }

/-- The assembly with the block scalar before this line, if there is one, closed. -/
def closeBlock (a : Assembly) (line : Nat) : Assembly :=
  match a.openBlock with
  | none => a
  | some first =>
    { a with
      openBlock := none
      blocks := if first < line then a.blocks ++ [⟨first, line⟩] else a.blocks }

/-- The assembly after an event on a line. -/
def receive (a : Assembly) (line : Nat) (e : Event) : Assembly :=
  let a := a.closeBlock line
  match e with
  | .scalar text style number =>
    let plain : Bool := style = .plain
    let a := if style = .literal ∨ style = .folded then { a with openBlock := some line } else a
    let type := match Document.scalarValue text plain with
      | some value => value.valueType
      | none => .string
    let (anchor, a) := a.declare number type
    a.insert (.scalar line anchor text plain)
  | .alias number =>
    match a.anchors.lookup number with
    | some name => a.insert (.alias line name ((a.types.lookup name).getD .object))
    | none => { a with error := some (.aliasWithoutAnchor number) }
  | .mappingStart number =>
    let (anchor, a) := a.declare number .object
    { a with stack := .mapping line anchor [] none :: a.stack }
  | .sequenceStart number =>
    let (anchor, a) := a.declare number .array
    { a with stack := .sequence line anchor [] :: a.stack }
  | .mappingEnd | .sequenceEnd =>
    match a.stack with
    | [] => a
    | frame :: frames => { a with stack := frames }.insert frame.close
  | _ => a

/-- The assembly after events, each with its line. -/
def receiveAll (a : Assembly) (events : List (Nat × Event)) : Assembly :=
  events.foldl (fun a (line, e) => a.receive line e) a

end Assembly

end LayeredConfig.Yaml
