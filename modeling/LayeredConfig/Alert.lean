import LayeredConfig.Error

/-!
# Alerts

Messages for the user that are no results: a failure that has been dealt with, or a warning.
-/

namespace LayeredConfig

/-- How grave an alert is. -/
inductive AlertKind where
  | error
  | warning
  deriving DecidableEq, Repr

/-- The name of a kind of alert. -/
def AlertKind.name : AlertKind → String
  | .error => "error"
  | .warning => "warning"

/-- A message for the user. -/
structure Alert where
  kind : AlertKind
  message : String
  deriving DecidableEq, Repr

namespace Alert

/-- The alert that tells a failure of the compiler, after some words of introduction. -/
def ofCompileError (introduction : String) (e : CompileError) : Alert :=
  ⟨.error, introduction ++ e.message⟩

/-- An alert on a line of its own. -/
def line (a : Alert) : String := a.kind.name ++ ": " ++ a.message ++ "\n"

end Alert

end LayeredConfig
