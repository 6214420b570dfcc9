import LayeredConfig.Alert
import LayeredConfig.Compile
import LayeredConfig.Yaml.Drafts

/-!
# Configuration files

Loading, checking, compiling and saving configurations that are kept in files. A `Storage` is what
this needs of the world outside. Failures of the compiler are told by alerts, so that a caller only
learns that there was one; a failure to load is handed to the caller.
-/

namespace LayeredConfig

/-- Where files are kept. -/
structure Storage (m : Type → Type) where
  /-- The text of a file, or why there is none. -/
  read : String → m (Except String String)
  /-- Put a text in place of the file as a whole. The answer is whether this worked. -/
  write : String → String → m Bool
  /-- The paths of the configuration files below a directory, in order. -/
  list : String → m (Option (List String))

namespace Configuration

/-- The configuration in a file, given what reading the file gave. -/
def ofReading (path : String) : Except String String → Except ServiceError Configuration
  | .error _ => .error (.failed ("read configuration: " ++ path))
  | .ok text => (Yaml.load text).mapError fun e => .compile (.unreadable e)

/-- Whether a configuration can be written and each of its environments compiled. -/
def check (c : Configuration) (m : Markers) : Except CompileError Unit := do
  let _ ← Yaml.emit c
  c.environmentNames.forM fun name => do
    let _ ← c.compileText m name

/-- What is wrong with a configuration, if anything is. -/
def fault? (c : Configuration) (m : Markers) : Option Alert :=
  match c.check m with
  | .ok () => none
  | .error e => some (.ofCompileError "YAML validation failed:\n" e)

/-- The document of an environment. -/
def compiled (c : Configuration) (m : Markers) (environment : String) : Except Alert String :=
  (c.compileText m environment).mapError (.ofCompileError "")

/-- The document of one node. Its anchors may be declared elsewhere, so they are not checked. -/
def preview? (c : Configuration) (n : NodeRef) : Option (Except Alert String) := do
  let tree ← c.tree? n.tree
  let shown ← tree.preview? n.handle
  pure ((Yaml.emitTree false shown).mapError (.ofCompileError ""))

end Configuration

namespace Storage

variable {m : Type → Type} [Monad m]

/-- Load the configuration in a file. -/
def load (s : Storage m) (path : String) : m (Except ServiceError Configuration) := do
  let reading ← s.read path
  pure (Configuration.ofReading path reading)

/-- Save a configuration. Nothing is written if it cannot be written as a document. -/
def save (s : Storage m) (path : String) (c : Configuration) :
    m (Except ServiceError Unit × List Alert) :=
  match Yaml.emit c with
  | .error e =>
    pure (.error (.compile e), [.ofCompileError ("Saving " ++ path ++ " failed:\n") e])
  | .ok text => do
    if ← s.write path text then pure (.ok (), [])
    else pure (.error (.failed ("write configuration: " ++ path)), [])

/-- The paths among these whose files hold a configuration, and a warning for each other. -/
def sift (s : Storage m) : List String → m (List String × List Alert)
  | [] => pure ([], [])
  | path :: paths => do
    let loaded ← s.load path
    let (found, alerts) ← s.sift paths
    match loaded with
    | .ok _ => pure (path :: found, alerts)
    | .error e => pure (found, ⟨.warning, "skipping " ++ path ++ ": " ++ e.message⟩ :: alerts)

/-- The configuration files below a directory that can be loaded. -/
def discover (s : Storage m) (dir : String) :
    m (Except ServiceError (List String) × List Alert) := do
  match ← s.list dir with
  | none => pure (.error (.failed ("scan directory: " ++ dir)), [])
  | some paths =>
    let (found, alerts) ← s.sift paths
    pure (.ok found, alerts)

end Storage

end LayeredConfig
