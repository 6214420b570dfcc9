import LayeredConfig.Decimal.Notation
import LayeredConfig.Decimal.Reading
import LayeredConfig.Text.Blank

/-!
# Scalar values and value types

A node of a configuration has a value type, and a scalar node holds a string, a boolean or a number.
Numbers are integers of 64 bits, signed or unsigned, or doubles.
-/

namespace LayeredConfig

/-- What a node may hold: a scalar of one of three types, named children or numbered items. -/
inductive ValueType where
  | string
  | boolean
  | number
  | object
  | array
  deriving DecidableEq, Repr, Inhabited

namespace ValueType

/-- Whether nodes of this type hold a value. -/
def isScalar : ValueType → Bool
  | .string | .boolean | .number => true
  | .object | .array => false

/-- Whether nodes of this type hold children. -/
def isContainer (t : ValueType) : Bool := !t.isScalar

/-- The name of a type. -/
def name : ValueType → String
  | .string => "string"
  | .boolean => "boolean"
  | .number => "number"
  | .object => "object"
  | .array => "array"

/-- The type that a name or one of its short forms stands for, in any case and between blanks. The
error is the name as it was understood. -/
def ofName (text : String) : Except String ValueType :=
  match Text.lowerAscii (Text.trim text) with
  | "string" | "str" => .ok .string
  | "boolean" | "bool" => .ok .boolean
  | "number" | "int" | "float" => .ok .number
  | "object" | "map" => .ok .object
  | "array" | "list" | "seq" => .ok .array
  | other => .error other

theorem ofName_name (t : ValueType) : (ofName t.name).toOption = some t := by
  cases t <;> rfl

end ValueType

/-- A number of a configuration. -/
inductive Number where
  | int (value : Int)
  | float (value : Binary64)
  deriving DecidableEq, Repr, Inhabited

namespace Number

/-- The least integer kept as an integer. -/
def minInt : Int := -(Nat.pow 2 63 : Int)

/-- The greatest integer kept as an integer. -/
def maxInt : Int := (Nat.pow 2 64 : Int) - 1

/-- Doubles keep a point or an exponent; positional notation covers `1e-5` up to `1e16`. -/
def layout : Binary64.Layout where
  positionalFrom := -4
  positionalTo := 16
  infinityText := ".inf"
  nanText := ".nan"

/-- The text of a number. -/
def render : Number → String
  | .int i => toString i
  | .float x => layout.render x

/-- The number that a text stands for: an integer when it is one and fits, else a double. -/
def read? (text : String) : Option Number :=
  let cs := (Text.trim text).toList
  match Decimal.readInt? cs with
  | some i =>
    if minInt ≤ i ∧ i ≤ maxInt then some (.int i)
    else (Decimal.readBinary64? cs).map .float
  | none => (Decimal.readBinary64? cs).map .float

end Number

/-- The value of a scalar node. -/
inductive Scalar where
  | string (text : String)
  | boolean (value : Bool)
  | number (value : Number)
  deriving DecidableEq, Repr, Inhabited

namespace Scalar

/-- The type of the nodes that hold such a value. -/
def valueType : Scalar → ValueType
  | .string _ => .string
  | .boolean _ => .boolean
  | .number _ => .number

theorem valueType_isScalar (s : Scalar) : s.valueType.isScalar := by
  cases s <;> rfl

/-- The text of a string value. -/
def string? : Scalar → Option String
  | .string text => some text
  | _ => none

/-- The text of a value, without quotes. -/
def render : Scalar → String
  | .string text => text
  | .boolean true => "true"
  | .boolean false => "false"
  | .number n => n.render

/-- The value of the given type that a text stands for. Strings are taken as they are; booleans and
numbers may stand between blanks; containers have no value. -/
def read? (type : ValueType) (text : String) : Option Scalar :=
  match type with
  | .string => some (.string text)
  | .boolean =>
    match Text.trim text with
    | "true" => some (.boolean true)
    | "false" => some (.boolean false)
    | _ => none
  | .number => (Number.read? text).map .number
  | .object | .array => none

end Scalar

end LayeredConfig
