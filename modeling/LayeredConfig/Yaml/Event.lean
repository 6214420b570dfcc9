import LayeredConfig.Yaml.Token

/-!
# Events of a document

A document told as a sequence of events: the start and end of each collection and, between them, its
scalars and aliases. The keys and values of a mapping alternate. Anchors are told by number, in the
order of their declarations, from one on; zero stands for none.
-/

namespace LayeredConfig.Yaml

/-- One event. -/
inductive Event where
  | streamStart
  | streamEnd
  | documentStart
  | documentEnd
  | alias (anchor : Nat)
  | scalar (text : String) (style : Style) (anchor : Nat)
  | sequenceStart (anchor : Nat)
  | sequenceEnd
  | mappingStart (anchor : Nat)
  | mappingEnd
  deriving DecidableEq, Repr, Inhabited

/-- A scalar that is not written. -/
def Event.missing : Event := .scalar "~" .plain 0

/-- A scalar of which only an anchor or a tag is written. -/
def Event.missingWith (anchor : Nat) : Event := .scalar "" .plain anchor

end LayeredConfig.Yaml
