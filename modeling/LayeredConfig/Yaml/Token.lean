/-!
# Tokens of a document

What the characters of a document are cut into before it is understood: the ends of collections,
the indicators, and the scalars with their text. Each token stands at a mark, the place of its first
character.
-/

namespace LayeredConfig.Yaml

/-- A place in a text: the number of characters before it, of line ends before it, and of
characters between the last line end and it. -/
structure Mark where
  index : Nat := 0
  line : Nat := 0
  column : Nat := 0
  deriving DecidableEq, Repr, Inhabited

/-- How a scalar is written. -/
inductive Style where
  | plain
  | singleQuoted
  | doubleQuoted
  | literal
  | folded
  deriving DecidableEq, Repr, Inhabited

/-- What a token is. -/
inductive TokenKind where
  | streamStart
  | streamEnd
  | versionDirective
  | tagDirective (handle : String)
  | documentStart
  | documentEnd
  | blockSequenceStart
  | blockMappingStart
  | blockEnd
  | flowSequenceStart
  | flowSequenceEnd
  | flowMappingStart
  | flowMappingEnd
  | blockEntry
  | flowEntry
  | key
  | value
  | alias (name : String)
  | anchor (name : String)
  | tag (handle : String)
  | scalar (style : Style) (text : String)
  deriving DecidableEq, Repr, Inhabited

/-- A token at its mark. -/
structure Token where
  mark : Mark
  kind : TokenKind
  deriving DecidableEq, Repr, Inhabited

end LayeredConfig.Yaml
