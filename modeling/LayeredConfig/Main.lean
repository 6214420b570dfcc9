import LayeredConfig.Command.Line
import LayeredConfig.Command.Run

/-!
# The program

The host that works on the real world, and the entry point: arguments are read and carried out.
-/

namespace LayeredConfig

/-- The variables that the program looks at, apart from those that a path names. -/
def knownVariables : List String :=
  ["HOME", "XDG_CONFIG_HOME", "YAMLENV_FILE", "YAMLENV_DEFAULT_FILE", "YAMLENV_ENVIRONMENTS",
   "YAMLENV_VARIABLES__PREFIX", "YAMLENV_VARIABLES__SUFFIX"]

/-- Whether an action on files works. -/
def works (action : IO Unit) : IO Bool := do
  try
    action
    pure true
  catch _ => pure false

/-- The text of a file, or why there is none. -/
def readText (path : String) : IO (Except String String) := do
  try pure (.ok (← IO.FS.readFile path))
  catch e => pure (.error (toString e))

/-- Put a text in place of a file: it is written beside the file, which it then replaces. -/
def replaceText (path text : String) : IO Bool := do
  let beside := path ++ ".new"
  if ← works (IO.FS.writeFile beside text) then
    if ← works (IO.FS.rename beside path) then pure true
    else
      let _ ← works (IO.FS.removeFile beside)
      pure false
  else pure false

/-- The names in a directory; nothing if there is no such directory. -/
def namesIn (path : String) : IO (Option (List String)) := do
  try
    let entries ← (← IO.FS.realPath path).readDir
    pure (some (entries.toList.map (·.fileName)))
  catch _ => pure none

/-- The files at and below a path, at most so many directories deep. -/
def filesBelow : Nat → String → IO (List String)
  | 0, _ => pure []
  | depth + 1, path => do
    match ← namesIn path with
    | none => pure [path]
    | some names =>
      let inside ← names.mapM fun name => filesBelow depth (PathName.join path name)
      pure inside.flatten

/-- How deep directories are searched. -/
def searchDepth : Nat := 256

/-- Whether there is something at a path. -/
def isThere (path : String) : IO Bool :=
  works do
    let _ ← IO.FS.realPath path

/-- Whether a path is that of a configuration file. -/
def isConfigurationPath (path : String) : Bool :=
  match (PathName.extension? path).map Text.lowerAscii with
  | some "yaml" | some "yml" => true
  | _ => false

/-- The configuration files below a directory, in order. -/
def configurationFiles (dir : String) : IO (Option (List String)) := do
  if ← isThere dir then
    let found ← filesBelow searchDepth dir
    pure (some (PathName.sorted (found.filter isConfigurationPath)))
  else pure none

/-- The variables of the environment that have these names. -/
def variablesOf (names : List String) : IO Settings.Variables :=
  names.filterMapM fun name => do
    pure ((← IO.getEnv name).map (name, ·))

/-- A variable from a line that has its name, an equals sign and its value. -/
def variableOf? (line : List Char) : Option (String × String) :=
  match line.dropWhile (· != '=') with
  | _ :: value => some (String.ofList (line.takeWhile (· != '=')), String.ofList value)
  | [] => none

/-- The variables of the environment: all of them where the system lists them in a file, else those
that the program looks at. -/
def allVariables : IO Settings.Variables := do
  match ← readText "/proc/self/environ" with
  | .ok listing => pure ((Text.splitAt '\x00' listing.toList).filterMap variableOf?)
  | .error _ => variablesOf knownVariables

/-- The real world. -/
def realHost : IO (Host IO) := do
  let vars ← allVariables
  let stdout ← IO.getStdout
  let stderr ← IO.getStderr
  let stdin ← IO.getStdin
  let directory ← IO.currentDir
  pure
    { read := readText
      write := replaceText
      list := configurationFiles
      present := isThere
      createDirectories := fun path => works (IO.FS.createDirAll path)
      create := fun path text => works (IO.FS.writeFile path text)
      print := stdout.putStr
      complain := stderr.putStr
      readLine := do
        try pure (some (← stdin.getLine))
        catch _ => pure none
      vars
      directory := toString directory }

/-- What is told of a fault in the arguments. -/
def describeFault : Arguments.Fault → String
  | .helpWanted | .nothingGiven | .missingSubcommand =>
    "Usage: yamlenv [OPTIONS] [COMMAND]\n\nCommands: "
      ++ ", ".intercalate (Command.grammar.subcommands.map (·.1)) ++ "\n"
  | .versionWanted => "yamlenv\n"
  | .unknownSubcommand text => "error: unrecognized subcommand '" ++ text ++ "'\n"
  | .unknownArgument text => "error: unexpected argument '" ++ text ++ "'\n"
  | .missingArgument name => "error: missing argument '" ++ name ++ "'\n"
  | .conflict name other => "error: '" ++ name ++ "' cannot be used with '" ++ other ++ "'\n"
  | .invalidValue name text => "error: invalid value '" ++ text ++ "' for '" ++ name ++ "'\n"
  | .surplusValue name text => "error: unexpected value '" ++ text ++ "' for '" ++ name ++ "'\n"

end LayeredConfig

open LayeredConfig in
/-- Carry out a command line. -/
def main (args : List String) : IO UInt32 := do
  let host ← realHost
  match Invocation.ofArguments host.vars args with
  | .error fault =>
    if fault.exitCode = 0 then IO.print (describeFault fault) else IO.eprint (describeFault fault)
    pure fault.exitCode.toUInt32
  | .ok invocation =>
    match ← invocation.run host with
    | .ok () => pure 0
    | .error e => pure e.exitCode.toUInt32
