import LayeredConfig.ConfigurationFile
import LayeredConfig.Settings

/-!
# The host

What a command needs of the world outside, as one record: files, the two streams of output, a line
of input, the variables of the environment and the working directory. Everything else is told in
terms of it, so a command can be run against the real world as well as against files in memory.
-/

namespace LayeredConfig

/-- The world outside. Operations that can fail give whether they worked. -/
structure Host (m : Type → Type) extends Storage m where
  /-- Whether there is a file or a directory at a path. -/
  present : String → m Bool
  /-- Make a directory and those above it. -/
  createDirectories : String → m Bool
  /-- Make a file, or put a text into one. -/
  create : String → String → m Bool
  print : String → m Unit
  /-- Print to the stream for errors. -/
  complain : String → m Unit
  /-- The next line of input with its end; nothing more is an empty line. -/
  readLine : m (Option String)
  vars : Settings.Variables
  /-- The working directory. -/
  directory : String

namespace Host

variable {m : Type → Type} [Monad m]

/-- A file with settings, if it exists. -/
def settingsFile (h : Host m) (path : String) : m (Option SettingsFile) := do
  if ← h.present path then
    let reading ← h.read path
    pure (some ⟨path, reading⟩)
  else pure none

/-- The settings for a project, or those outside any project. -/
def settings (h : Host m) (project : Option String) : m (Except SettingsError Settings) := do
  let fileAt := fun (path : Option String) => match path with
    | some path => h.settingsFile path
    | none => pure none
  let global ← fileAt (Settings.globalPath? h.vars)
  let local? ← fileAt (project.map Settings.projectPath)
  pure (Settings.load global local? (Settings.home? h.vars) h.vars)

/-- Print alerts. -/
def alert (h : Host m) : List Alert → m Unit
  | [] => pure ()
  | a :: as => do
    h.complain a.line
    h.alert as

end Host

end LayeredConfig
