import LayeredConfig.Command.Property
import LayeredConfig.Host
import LayeredConfig.Tree.Drawing

/-!
# Running a command

Every command is told in terms of a `Host`, and fails with a `CommandError`. A command that changes
the configuration file loads it, changes the configuration by one commit or one deletion, and saves
it; if anything fails before that, the file is left alone.
-/

namespace LayeredConfig

namespace Command

/-- A command at work. -/
abbrev Work (m : Type → Type) := ExceptT CommandError m

section

variable {m : Type → Type} [Monad m] (h : Host m)

/-- Something done to the host. -/
def act {α : Type} (x : m α) : Work m α := ExceptT.lift x

/-- A result that does not concern the host. -/
def settled {α : Type} (r : Except CommandError α) : Work m α := ExceptT.mk (pure r)

/-! ## Output -/

/-- A line of output. -/
def say (text : String) : Work m Unit := act (h.print (text ++ "\n"))

/-- The line that tells of success. -/
def succeed (text : String) : Work m Unit := say h ("✓ " ++ text)

/-- An indented line. -/
def detail (text : String) : Work m Unit := say h ("  " ++ text)

/-- A warning. -/
def warn (text : String) : Work m Unit := act (h.complain ("Warning: " ++ text ++ "\n"))

/-- A document, which ends in one line end. -/
def document (text : String) : Work m Unit :=
  act (h.print (if text.endsWith "\n" then text else text ++ "\n"))

/-- A text, or the alert in its place and a summary of the failure. -/
def textOr (summary : String) : Except Alert String → Work m String
  | .ok text => pure text
  | .error a => do
    act (h.alert [a])
    throw (.reported summary)

/-! ## Files -/

/-- The configuration in a file. -/
def load (file : String) : Work m Configuration := do
  let loaded ← act (h.toStorage.load file)
  settled (loaded.mapError .service)

/-- Save a configuration. -/
def save (file : String) (c : Configuration) : Work m Unit := do
  let (result, alerts) ← act (h.toStorage.save file c)
  act (h.alert alerts)
  settled (result.mapError fun e => .reported e.message)

/-! ## The commands -/

variable (settings : Settings) (file : String)

/-- The environment to compile, if none is named. There is nobody to choose one. -/
def chooseEnvironment (c : Configuration) : Except CommandError String :=
  .error (.usage
    (if c.environmentNames.isEmpty then "no environments defined" else "no environment selected"))

/-- Print the document of an environment. -/
def runCompile (environment : Option String) : Work m Unit := do
  let c ← load h file
  let name ← settled (match environment with
    | some name => .ok name
    | none => chooseEnvironment c)
  let text ← textOr h ("cannot compile '" ++ name ++ "'") (c.compiled settings.markers name)
  document h text

/-- Check the configuration and all environments. -/
def runValidate : Work m Unit := do
  let c ← load h file
  match c.fault? settings.markers with
  | none => succeed h (file ++ " is valid")
  | some a => do
    act (h.alert [a])
    throw (.reported (file ++ " is invalid"))

/-- Draw the two trees. -/
def runTree : Work m Unit := do
  let c ← load h file
  say h c.default.drawing
  say h c.environments.drawing

/-- Print the document of a node. -/
def runPreview (path : String) : Work m Unit := do
  let c ← load h file
  let node ← settled (Session.refused (c.resolvePath path))
  let summary := "cannot preview '" ++ path ++ "'"
  match c.preview? node with
  | none => throw (.reported summary)
  | some shown => do
    let text ← textOr h summary shown
    document h text

/-- Print the options for keys, one to a line. -/
def sayOptions : List KeyOption → Work m Unit
  | [] => pure ()
  | o :: os => do
    say h (o.key ++ " (" ++ o.type.name ++ ")")
    sayOptions os

/-- List the keys on offer below a node. -/
def runKeys (path : String) : Work m Unit := do
  let c ← load h file
  let node ← settled (Session.refused (c.resolvePath path))
  let property ← settled (Session.refused ((Session.start settings c).compose node false).1)
  if property.options.isEmpty then detail h "(free-form)"
  sayOptions h property.options

/-- Save what an edit made of the configuration, and tell the path of its node. -/
def finishEdit (done : String) (r : Except CommandError (Session × NodeRef)) : Work m Unit := do
  let (s, node) ← settled r
  save h file s.config
  succeed h (done ++ " " ++ s.config.pathText node)

/-- Add a property. -/
def runAdd (parent : String) (key : Option String) (fields : PropertyFields) : Work m Unit := do
  let c ← load h file
  finishEdit h file "added" ((Session.start settings c).addProperty parent key fields)

/-- Edit a property. -/
def runEdit (path : String) (key : Option String) (fields : PropertyFields) : Work m Unit := do
  let c ← load h file
  finishEdit h file "updated" ((Session.start settings c).editProperty path key fields)

/-- Whether a line of input says yes. -/
def saysYes (line : String) : Bool :=
  let answer := Text.lowerAscii (Text.trim line)
  answer == "y" || answer == "yes"

/-- Ask whether to go on. -/
def confirm (question : String) : Work m Confirmation := do
  act (h.complain (question ++ " [y/N] "))
  match ← act h.readLine with
  | none => pure .failed
  | some line => pure (if saysYes line then .yes else .no)

/-- Delete a node, after a question unless the answer was given in advance. -/
def runDelete (path : String) (confirmed : Bool) : Work m Unit := do
  let c ← load h file
  let node ← settled (Session.refused (c.resolvePath path))
  let s := Session.start settings c
  let answer ← if confirmed then pure .yes else confirm h (s.deletionPrompt node)
  let (result, s) := s.delete node answer
  let deleted ← settled (result.mapError .service)
  if deleted then
    save h file s.config
    succeed h ("deleted " ++ path)
  else warn h "aborted"

/-- Print lines. -/
def sayAll : List String → Work m Unit
  | [] => pure ()
  | text :: texts => do
    say h text
    sayAll texts

/-- List the configuration files below a directory. -/
def runList (dir : String) : Work m Unit := do
  let (result, alerts) ← act (h.toStorage.discover dir)
  act (h.alert alerts)
  let found ← settled (result.mapError .service)
  if found.isEmpty then warn h ("no configuration files below " ++ dir)
  sayAll h found

/-! ## Settings -/

/-- A new file with settings, all of them commented out. -/
def settingsTemplate : String :=
  "\n".intercalate
    ["# yamlenv configuration",
     "#",
     "# Locations (by precedence, lowest to highest):",
     "#   Global: ~/.config/yamlenv/yamlenv.toml  (defines your baseline)",
     "#   Local:  <project_dir>/.yamlenv.toml     (project-specific additions)",
     "#   Env:    YAMLENV_* environment variables (explicit overrides)",
     "#",
     "# Array Merge Semantics:",
     "#   Global config REPLACES compiled defaults (defaults are just examples).",
     "#   Local config UNIONS with global.",
     "#   Use \"!name\" in local config to REMOVE an inherited item:",
     "#     environments = [\"staging\", \"!qa\"]  # adds staging, removes qa",
     "",
     "# Configuration file used when no file argument is given",
     "# default_file = \"config.yaml\"",
     "",
     "# Environment names offered when adding an environment",
     "# environments = [\"dev\", \"qa\", \"prod\"]",
     "",
     "[variables]",
     "# Variable-reference syntax: <prefix>name<suffix>",
     "# prefix = \"$\x7b\"",
     "# suffix = \"\x7d\"",
     ""]

/-- Something that may not work, done to the host. -/
def attempt (operation : String) (x : m Bool) : Work m Unit := do
  if !(← act x) then throw (.io operation)

/-- Make a new file with settings. -/
def runCreateSettings (global : Bool) (project : String) : Work m Unit := do
  let path ← settled (match global, Settings.globalPath? h.vars with
    | false, _ => .ok (Settings.projectPath project)
    | true, some path => .ok path
    | true, none => .error (.usage "cannot determine config directory"))
  if ← act (h.present path) then throw (.usage ("config already exists: " ++ path))
  if let some parent := PathName.parent? path then
    attempt ("create " ++ parent) (h.createDirectories parent)
  attempt ("write " ++ path) (h.create path settingsTemplate)
  succeed h ("created " ++ path)

/-- A path, and whether there is a file. -/
def markedPath (path : String) : Work m String := do
  pure (path ++ (if ← act (h.present path) then " (exists)" else ""))

/-- Tell where settings are kept. -/
def runSettingsPaths (project : String) : Work m Unit := do
  say h "Config paths"
  match Settings.globalPath? h.vars with
  | some path => detail h ("global: " ++ (← markedPath h path))
  | none => detail h "global: (unavailable)"
  detail h ("local:  " ++ (← markedPath h (Settings.projectPath project)))

/-- The settings of a project. -/
def loadSettings (project : String) : Work m Settings := do
  let loaded ← act (h.settings (some project))
  settled (loaded.mapError fun e => .service (.settings e))

/-! ## Dispatch -/

/-- Run a command that needs the configuration file or the settings. -/
def runWith (project : String) : Command → Work m Unit
  | .compile environment => runCompile h settings file environment
  | .validate => runValidate h settings file
  | .tree => runTree h file
  | .preview path => runPreview h file path
  | .keys path => runKeys h settings file path
  | .add parent key fields => runAdd h settings file parent key fields
  | .edit path key fields => runEdit h settings file path key fields
  | .delete path confirmed => runDelete h settings file path confirmed
  | .list dir => runList h (dir.getD project)
  | .settings _ | .completion _ => pure ()

/-- Run what the command line asks for. -/
def run (i : Invocation) : Work m Unit := do
  let project := i.project.getD h.directory
  match i.command with
  | none | some (.completion _) => pure ()
  | some (.settings .display) => do
    let settings ← loadSettings h project
    document h settings.render
  | some (.settings (.create global)) => runCreateSettings h global project
  | some (.settings .paths) => runSettingsPaths h project
  | some command => do
    let settings ← loadSettings h project
    let file := PathName.join project (i.file.getD settings.defaultFile)
    runWith h settings file project command

end

end Command

/-- Run what the command line asks for, and tell a failure that was not told yet. -/
def Invocation.run {m : Type → Type} [Monad m] (h : Host m) (i : Invocation) :
    m (Except CommandError Unit) := do
  let result ← (Command.run h i).run
  match result with
  | .error e => if !e.isReported then h.complain ("error: " ++ e.message ++ "\n")
  | .ok () => pure ()
  pure result

end LayeredConfig
