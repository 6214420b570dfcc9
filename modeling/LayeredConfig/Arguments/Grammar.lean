/-!
# Grammars of command lines

A `Grammar` says what a command takes: options, which have a letter, a long name or both; values by
position; and subcommands with grammars of their own. A command that has subcommands also has the
subcommand `help`.
-/

namespace LayeredConfig.Arguments

/-- What an option does. -/
inductive OptionKind where
  /-- It takes a value, and is given at most once. -/
  | value
  /-- It takes a value, and may be given again. -/
  | values
  /-- It takes none, and is given at most once. -/
  | flag
  /-- It takes none, and may be given again. -/
  | count
  /-- It asks for help. -/
  | help
  /-- It asks for the version. -/
  | version
  deriving DecidableEq, Repr

/-- Which texts a value may be. -/
inductive Admitted where
  | any
  | nonEmpty
  | oneOf (texts : List String)
  deriving DecidableEq, Repr

/-- Whether a text may be a value. -/
def Admitted.admits : Admitted → String → Bool
  | .any, _ => true
  | .nonEmpty, text => !text.isEmpty
  | .oneOf texts, text => texts.contains text

/-- An option. -/
structure OptionSpec where
  name : String
  letter : Option Char := none
  kind : OptionKind := .value
  admitted : Admitted := .any
  /-- Its value may start with a dash. -/
  dashes : Bool := false
  /-- The options it cannot go with. -/
  excludes : List String := []
  /-- The variable that gives its value where the command line does not. -/
  variableName : Option String := none
  deriving DecidableEq, Repr

/-- Whether an option takes a value. -/
def OptionSpec.takesValue (o : OptionSpec) : Bool := o.kind == .value || o.kind == .values

/-- A value by position. -/
structure PositionalSpec where
  name : String
  required : Bool := true
  admitted : Admitted := .any
  deriving DecidableEq, Repr

/-- What a command takes. -/
inductive Grammar where
  | mk (options : List OptionSpec) (positionals : List PositionalSpec)
      (subcommands : List (String × Grammar)) (needsSubcommand : Bool)

namespace Grammar

/-- The options of a command. -/
def options : Grammar → List OptionSpec
  | .mk options _ _ _ => options

/-- The values by position of a command. -/
def positionals : Grammar → List PositionalSpec
  | .mk _ positionals _ _ => positionals

/-- The subcommands of a command, apart from `help`. -/
def subcommands : Grammar → List (String × Grammar)
  | .mk _ _ subcommands _ => subcommands

/-- Whether a command does nothing without a subcommand. -/
def needsSubcommand : Grammar → Bool
  | .mk _ _ _ needs => needs

/-- The name of the subcommand that shows help. -/
def helpName : String := "help"

/-- The option with a long name. -/
def long? (g : Grammar) (name : String) : Option OptionSpec :=
  g.options.find? (·.name == name)

/-- The option with a letter. -/
def letter? (g : Grammar) (c : Char) : Option OptionSpec :=
  g.options.find? (·.letter == some c)

/-- Whether a text names a subcommand. -/
def isSubcommand (g : Grammar) (text : String) : Bool :=
  !g.subcommands.isEmpty && (text == helpName || (g.subcommands.lookup text).isSome)

end Grammar

end LayeredConfig.Arguments
