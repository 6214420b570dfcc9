import LayeredConfig.Error

/-!
# Commands

What the command line can ask for, and why a command fails. The exit code of a failure tells its
kind: misuse, bad data, a failure of input or output, or bad settings.
-/

namespace LayeredConfig

/-- What a command line says about a property. What is not given is left as it is. -/
structure PropertyFields where
  type : Option String := none
  value : Option String := none
  anchor : Option String := none
  withoutAnchor : Bool := false
  aliases : List String := []
  withoutAliases : Bool := false
  /-- An empty comment removes the one there is. -/
  comment : Option String := none
  deriving DecidableEq, Repr

/-- What to do about settings. -/
inductive SettingsCommand where
  | display
  | create (global : Bool)
  | paths
  deriving DecidableEq, Repr

/-- What the command line asks for. -/
inductive Command where
  | compile (environment : Option String)
  | validate
  | tree
  | preview (path : String)
  | keys (path : String)
  | add (parent : String) (key : Option String) (fields : PropertyFields)
  | edit (path : String) (key : Option String) (fields : PropertyFields)
  | delete (path : String) (confirmed : Bool)
  | list (dir : Option String)
  | settings (command : SettingsCommand)
  | completion (shell : String)
  deriving DecidableEq, Repr

/-- A command line as it was understood. -/
structure Invocation where
  /-- The directory of the project. -/
  project : Option String := none
  /-- The configuration file. -/
  file : Option String := none
  command : Option Command := none
  deriving DecidableEq, Repr

/-- Why a command fails. -/
inductive CommandError where
  | service (cause : ServiceError)
  | arguments (reason : String)
  | usage (reason : String)
  /-- A failure that an alert has told the user. -/
  | reported (summary : String)
  | io (operation : String)
  deriving DecidableEq, Repr

namespace CommandError

/-- The text of a failure. -/
def message : CommandError → String
  | .service cause => cause.message
  | .arguments reason => "invalid arguments: " ++ reason
  | .usage reason => reason
  | .reported summary => summary
  | .io operation => "I/O error: " ++ operation

/-- Whether the user has been told. -/
def isReported : CommandError → Bool
  | .reported _ => true
  | _ => false

/-- The exit code of a failure. -/
def exitCode : CommandError → Nat
  | .arguments _ | .usage _ => 64
  | .reported _ => 65
  | .io _ => 74
  | .service (.edit _) | .service (.compile _) => 65
  | .service (.settings _) => 78
  | .service (.failed _) => 74

end CommandError

end LayeredConfig
