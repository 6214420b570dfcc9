import LayeredConfig.Error
import LayeredConfig.PathName
import LayeredConfig.Reference
import LayeredConfig.Settings.Override
import LayeredConfig.Toml.Document
import LayeredConfig.Toml.Writing

/-!
# Settings

Settings come in layers: built in, global, of the project, and from the environment. Each layer
holds what it says and nothing else. The global layer and the environment replace what is below
them. The layer of a project replaces single settings, but extends the list of environments: it adds
names, and takes a name off the list that it gives behind an exclamation mark.
-/

namespace LayeredConfig

/-- A list of names with another merged into it: the names of both, each once and where it occurs
first, without those that the second gives behind an exclamation mark. -/
def mergeNames (base overlay : List String) : List String :=
  let negated := overlay.filterMap fun name =>
    match name.toList with
    | '!' :: rest => some (String.ofList rest)
    | _ => none
  let added := overlay.filter fun name => name.toList.head? != some '!'
  ((base ++ added).filter (!negated.contains ·)).eraseDups

/-- What one layer says. -/
structure SettingsLayer where
  defaultFile : Option String := none
  environments : Option (List String) := none
  opening : Option String := none
  closing : Option String := none
  deriving DecidableEq, Repr, Inhabited

/-- Settings as texts, the markers of references not yet checked. -/
structure SettingsText where
  defaultFile : String
  environments : List String
  opening : String
  closing : String
  deriving DecidableEq, Repr, Inhabited

/-- The settings of the program. -/
structure Settings where
  /-- The configuration file used when none is named. -/
  defaultFile : String
  /-- The names on offer for a new environment. -/
  environments : List String
  markers : Markers
  deriving DecidableEq, Inhabited

namespace SettingsText

/-- The settings that are built in. -/
def builtin : SettingsText where
  defaultFile := "config.yaml"
  environments := ["dev", "qa", "prod"]
  opening := Markers.standard.opening
  closing := Markers.standard.closing

/-- Settings with a layer in their place. -/
def replaced (s : SettingsText) (l : SettingsLayer) : SettingsText where
  defaultFile := l.defaultFile.getD s.defaultFile
  environments := l.environments.getD s.environments
  opening := l.opening.getD s.opening
  closing := l.closing.getD s.closing

/-- Settings with the layer of a project. -/
def extended (s : SettingsText) (l : SettingsLayer) : SettingsText :=
  { s.replaced l with
    environments := match l.environments with
      | some names => mergeNames s.environments names
      | none => s.environments }

end SettingsText

/-! ## Layers from documents and from the environment -/

/-- The text of a setting, if a document gives it; nothing if it is no string. -/
def Toml.Entries.text? (es : Toml.Entries) (key : String) : Option (Option String) :=
  match es.lookup key with
  | none => some none
  | some (.string text) => some (some text)
  | some _ => none

/-- The texts of an array of strings. -/
def Toml.Item.texts? : Toml.Item → Option (List String)
  | .array items => items.mapM fun item => match item with
    | .string text => some text
    | _ => none
  | _ => none

namespace SettingsLayer

/-- The markers that a document gives: a table, or an array of the two texts. -/
def markersOf? : Toml.Item → Option (Option String × Option String)
  | .table _ es => do
    let opening ← Toml.Entries.text? es "prefix"
    let closing ← Toml.Entries.text? es "suffix"
    pure (opening, closing)
  | .array items => do
    let texts ← (Toml.Item.array (items.take 2)).texts?
    pure (texts[0]?, texts[1]?)
  | _ => none

/-- The layer that a document holds. Settings it does not know are skipped, but those it knows have
to be of their type. -/
def ofEntries? (es : Toml.Entries) : Option SettingsLayer := do
  let defaultFile ← Toml.Entries.text? es "default_file"
  let environments ← match es.lookup "environments" with
    | none => pure none
    | some item => (item.texts?).map some
  let (opening, closing) ← match es.lookup "variables" with
    | none => pure (none, none)
    | some item => markersOf? item
  pure { defaultFile, environments, opening, closing }

/-- The layer that the environment holds. -/
def ofVariables (vars : Settings.Variables) : SettingsLayer where
  defaultFile := Settings.textOverride? vars "default_file"
  environments := Settings.listOverride? vars "environments"
  opening := Settings.textOverride? vars "variables.prefix"
  closing := Settings.textOverride? vars "variables.suffix"

end SettingsLayer

/-- A file with settings that exists: its path, and its text or why it cannot be read. -/
structure SettingsFile where
  path : String
  reading : Except String String

/-- The layer in a file. -/
def SettingsFile.layer (f : SettingsFile) : Except SettingsError SettingsLayer :=
  match f.reading with
  | .error reason => .error (.unreadable f.path reason)
  | .ok text =>
    match (Toml.entries? text).bind SettingsLayer.ofEntries? with
    | some layer => .ok layer
    | none => .error (.malformed f.path)

namespace Settings

/-- The layer of a file, or an empty one if there is no file. -/
def layerOf (file : Option SettingsFile) : Except SettingsError SettingsLayer :=
  match file with
  | some f => f.layer
  | none => .ok {}

/-- The settings from the two files and from the environment. -/
def load (global project : Option SettingsFile) (home : Option String) (vars : Variables) :
    Except SettingsError Settings := do
  let globalLayer ← layerOf global
  let projectLayer ← layerOf project
  let s := ((SettingsText.builtin.replaced globalLayer).extended projectLayer).replaced
    (.ofVariables vars)
  let defaultFile := expandPath home vars s.defaultFile
  match Markers.ofTexts? s.opening s.closing with
  | some markers => pure { defaultFile, environments := s.environments, markers }
  | none => throw (.markers (.emptyMarker s.opening s.closing))

/-- Settings as a document. -/
def render (s : Settings) : String :=
  Toml.writeEntry "default_file" (Toml.writeString s.defaultFile)
    ++ Toml.writeEntry "environments" (Toml.writeArray s.environments)
    ++ "\n[variables]\n"
    ++ Toml.writeEntry "prefix" (Toml.writeString s.markers.opening)
    ++ Toml.writeEntry "suffix" (Toml.writeString s.markers.closing)

/-! ## Where settings are kept -/

/-- The name of the program, which its directory of settings bears. -/
def programName : String := "yamlenv"

/-- The home directory. -/
def home? (vars : Variables) : Option String :=
  (vars.lookup "HOME").filter (!·.isEmpty)

/-- The global file: in the directory for settings that the environment names, or below the home
directory. -/
def globalPath? (vars : Variables) : Option String := do
  let home ← home? vars
  let base := match (vars.lookup "XDG_CONFIG_HOME").filter PathName.isAbsolute with
    | some dir => dir
    | none => PathName.join home ".config"
  pure (PathName.join (PathName.join base programName) (programName ++ ".toml"))

/-- The name of the file of a project. -/
def projectFileName : String := "." ++ programName ++ ".toml"

/-- The file of a project. -/
def projectPath (dir : String) : String := PathName.join dir projectFileName

end Settings

end LayeredConfig
