import LayeredConfig.Decimal.Notation
import LayeredConfig.Decimal.Reading
import LayeredConfig.Settings.Expansion
import LayeredConfig.Text.Blank

/-!
# Settings in the environment

A variable whose name starts with `YAMLENV_`, in any case, overrides a setting: the rest of the name
is the setting's, two underscores standing between a table and its key. A value that reads as a
boolean or a number is taken for one and written back in its normal form. Lists are separated by
commas and replace what other settings list; a boolean or a number is no list.
-/

namespace LayeredConfig.Settings

/-- What the names of the variables start with, in lower case. -/
def overrideStart : String := "yamlenv_"

/-- Doubles are written positionally, without a point where there is no fraction. -/
def plainLayout : Binary64.Layout where
  positionalFrom := -400
  positionalTo := 400
  pointZero := false
  infinityText := "inf"
  nanText := "NaN"

/-- The normal form of a value that reads as a boolean or a number. -/
def typed? (value : String) : Option String :=
  match Text.lowerAscii value with
  | "true" => some "true"
  | "false" => some "false"
  | _ =>
    match Decimal.readInt? value.toList with
    | some i =>
      if -(Nat.pow 2 63 : Int) ≤ i ∧ i < Nat.pow 2 63 then some (toString i)
      else (Decimal.readBinary64? value.toList).map plainLayout.render
    | none => (Decimal.readBinary64? value.toList).map plainLayout.render

/-- A name with a dot for every two underscores, from left to right. -/
def dotted : List Char → List Char
  | '_' :: '_' :: rest => '.' :: dotted rest
  | c :: rest => c :: dotted rest
  | [] => []

/-- The setting that a variable overrides. -/
def settingOf? (name : String) : Option String :=
  let lower := Text.lowerAscii name
  if lower.startsWith overrideStart then
    some (String.ofList (dotted (lower.toList.drop overrideStart.length)))
  else none

/-- The value that the environment gives a setting. Of variables that differ in case only, the last
one counts. -/
def override? (vars : Variables) (setting : String) : Option String :=
  (vars.reverse.find? fun (name, _) => settingOf? name == some setting).map (·.2)

/-- The text that the environment gives a setting. -/
def textOverride? (vars : Variables) (setting : String) : Option String :=
  (override? vars setting).map fun value => (typed? value).getD value

/-- The list that the environment gives a setting. -/
def listOverride? (vars : Variables) (setting : String) : Option (List String) :=
  (override? vars setting).bind fun value =>
    if (typed? value).isSome then none
    else some ((value.toList.splitOn ',').map String.ofList)

end LayeredConfig.Settings
