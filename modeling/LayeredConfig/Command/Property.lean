import LayeredConfig.Command
import LayeredConfig.Session
import LayeredConfig.Settings

/-!
# Adding and editing a property

The part of a command that changes a configuration, without its files: a session is opened on the
node, a draft is made from what the command line says, and committed.
-/

namespace LayeredConfig

namespace PropertyFields

/-- The type that a property is to have: the one that is named, or else the one it has, or else the
one that is offered, or else a string if there is a value and an object if there is none. -/
def wantedType (f : PropertyFields) (base : Option NodeData) (offered : Option ValueType) :
    Except EditError ValueType :=
  match f.type with
  | some name => (ValueType.ofName name).mapError .unknownValueType
  | none =>
    pure (((base.map (·.type)).or offered).getD (if f.value.isSome then .string else .object))

/-- The value that a property is to have. The old value is kept where it reads as the type. -/
def wantedValue (f : PropertyFields) (old : NodeData) (type : ValueType) :
    Except EditError (Option Scalar) :=
  match f.value with
  | some text =>
    match Scalar.read? type text with
    | some value => pure (some value)
    | none => throw (.typeMismatch text type)
  | none =>
    if old.type = type then pure old.value
    else pure (old.value.bind fun value => Scalar.read? type value.render)

/-- The draft of a property under a key. -/
def draft (f : PropertyFields) (key : String) (base : Option NodeData)
    (offered : Option ValueType) : Except EditError Draft := do
  let type ← f.wantedType base offered
  let old : NodeData := base.getD { key, type }
  let value ← f.wantedValue old type
  let anchor := if f.withoutAnchor then none else f.anchor.or old.anchor
  let aliases :=
    if f.withoutAliases then [] else if f.aliases.isEmpty then old.aliases else f.aliases
  let comment := match f.comment with
    | none => old.comment
    | some text => if text.isEmpty then none else some text
  pure ⟨{ key, type, value, anchor, aliases, comment }, .nil⟩

end PropertyFields

namespace Session

/-- A session on a configuration. -/
def start (settings : Settings) (config : Configuration) : Session :=
  { config, markers := settings.markers, known := settings.environments }

/-- A refused edit as a failure of a command. -/
def refused {α : Type} (r : Except EditError α) : Except CommandError α :=
  r.mapError fun e => .service (.edit e)

/-- The type that is on offer for a key, or for the next item of an array. -/
def offeredType (options : List KeyOption) (array : Bool) (key : String) : Option ValueType :=
  if array then options.head?.map (·.type) else (options.find? (·.key == key)).map (·.type)

/-- Commit a draft and give the session after it with the node. -/
def committed (s : Session) (draft : Draft) : Except CommandError (Session × NodeRef) := do
  let (result, s) := s.commit draft
  let node ← refused result
  pure (s, node)

/-- Add a property below a node. Only keys on offer are taken where any are. -/
def addProperty (s : Session) (parent : String) (key : Option String) (fields : PropertyFields) :
    Except CommandError (Session × NodeRef) := do
  let node ← refused (s.config.resolvePath parent)
  let array := (s.config.tree? node.tree).any (·.isArray node.handle)
  let (composed, s) := s.compose node false
  let options := (← refused composed).options
  let key ← match key with
    | some key => pure key
    | none => if array then pure "" else throw (.arguments "a key is required")
  let offered := offeredType options array key
  if !options.isEmpty && offered.isNone && !array then
    let keys := ", ".intercalate (options.map (·.key))
    throw (.arguments
      ("'" ++ key ++ "' is not available here, choose one of: " ++ keys))
  let draft ← refused (fields.draft key none offered)
  s.committed draft

/-- Edit a property. -/
def editProperty (s : Session) (path : String) (key : Option String) (fields : PropertyFields) :
    Except CommandError (Session × NodeRef) := do
  let node ← refused (s.config.resolvePath path)
  let some current := s.config.data? node | throw (.usage ("node not found: " ++ path))
  let (composed, s) := s.compose node true
  let _ ← refused composed
  let draft ← refused (fields.draft (key.getD current.key) (some current) none)
  s.committed draft

end Session

end LayeredConfig
