import LayeredConfig.Host

/-!
# A host in memory

A `Memory` holds a tree of files and directories, what was printed and what is left of the input.
`Memory.host` is the host that works on it. Files and directories are told by their parts from the
root; a path is followed part by part, so that everything on the way has to be a directory.
-/

namespace LayeredConfig

/-- A place in a tree of files: the parts of its path from the root. -/
abbrev Spot := List String

/-- Files, streams and input in memory. -/
structure Memory where
  files : List (Spot × String) := []
  directories : List Spot := [[]]
  output : String := ""
  errors : String := ""
  input : String := ""

namespace Memory

/-- Whether there is a directory at a place. -/
def isDirectory (s : Memory) (spot : Spot) : Bool := s.directories.contains spot

/-- The place that parts of a path lead to from another. -/
def follow (s : Memory) (spot : Spot) : List String → Option Spot
  | [] => some spot
  | part :: parts =>
    if !s.isDirectory spot then none
    else if part = "" ∨ part = "." then s.follow spot parts
    else if part = ".." then s.follow spot.dropLast parts
    else s.follow (spot ++ [part]) parts

/-- The place that a path leads to from a directory. -/
def locate (s : Memory) (directory path : String) : Option Spot :=
  s.follow [] (((PathName.join directory path).toList.splitOn '/').map String.ofList)

/-- The text of the file at a place. -/
def text? (s : Memory) (spot : Spot) : Option String := s.files.lookup spot

/-- The text of the file at a path, or why there is none. -/
def read (s : Memory) (directory path : String) : Except String String :=
  match s.locate directory path with
  | none => .error "No such file or directory (os error 2)"
  | some spot =>
    match s.text? spot with
    | some text => .ok text
    | none =>
      .error (if s.isDirectory spot then "Is a directory (os error 21)"
        else "No such file or directory (os error 2)")

/-- Whether there is a file or a directory at a path. -/
def present (s : Memory) (directory path : String) : Bool :=
  match s.locate directory path with
  | none => false
  | some spot => s.isDirectory spot || (s.text? spot).isSome

/-- A text put into the file at a place. -/
def put (s : Memory) (spot : Spot) (text : String) : Memory :=
  if (s.text? spot).isSome then
    { s with files := s.files.map fun (at?, old) => (at?, if at? = spot then text else old) }
  else { s with files := s.files ++ [(spot, text)] }

/-- A text put into the file at a path; nothing if there can be no such file. -/
def write? (s : Memory) (directory path text : String) : Option Memory :=
  match s.locate directory path with
  | none => none
  | some spot =>
    if s.isDirectory spot || !s.isDirectory spot.dropLast then none else some (s.put spot text)

/-- The directories on the way along parts of a path made. -/
def makeDirectories (s : Memory) (spot : Spot) : List String → Option Memory
  | [] => some s
  | part :: parts =>
    if part = "" ∨ part = "." then s.makeDirectories spot parts
    else if part = ".." then s.makeDirectories spot.dropLast parts
    else
      let next := spot ++ [part]
      if (s.text? next).isSome then none
      else if s.isDirectory next then s.makeDirectories next parts
      else makeDirectories { s with directories := s.directories ++ [next] } next parts

/-- The extensions of configuration files. -/
def isConfigurationFile (path : String) : Bool :=
  match (PathName.extension? path).map Text.lowerAscii with
  | some "yaml" | some "yml" => true
  | _ => false

/-- The configuration files at and below a path, in order. -/
def list (s : Memory) (directory path : String) : Option (List String) := do
  let spot ← s.locate directory path
  if (s.text? spot).isSome then pure ([path].filter isConfigurationFile)
  else if s.isDirectory spot then
    let inside := (s.files.map (·.1)).filter fun file =>
      spot.length < file.length && file.take spot.length == spot
    let paths := inside.map fun file =>
      PathName.join path ("/".intercalate (file.drop spot.length))
    pure (PathName.sorted (paths.filter isConfigurationFile))
  else none

/-- The next line of the input with its end, and the input after it. -/
def nextLine (input : String) : String × String :=
  let cs := input.toList
  let line := cs.takeWhile (· != '\n')
  match cs.dropWhile (· != '\n') with
  | [] => (input, "")
  | _ :: rest => (String.ofList (line ++ ['\n']), String.ofList rest)

/-- Change the memory if that is possible. -/
def attempt (change : Memory → Option Memory) : StateM Memory Bool := do
  match change (← get) with
  | some s =>
    set s
    pure true
  | none => pure false

/-- The host that works on a memory, in a working directory and with variables. -/
def host (directory : String) (vars : Settings.Variables) : Host (StateM Memory) where
  read path := do pure ((← get).read directory path)
  write path text := attempt (·.write? directory path text)
  list path := do pure ((← get).list directory path)
  present path := do pure ((← get).present directory path)
  createDirectories path := attempt fun s =>
    s.makeDirectories [] (((PathName.join directory path).toList.splitOn '/').map String.ofList)
  create path text := attempt (·.write? directory path text)
  print text := modify fun s => { s with output := s.output ++ text }
  complain text := modify fun s => { s with errors := s.errors ++ text }
  readLine := do
    let s ← get
    let (line, rest) := nextLine s.input
    set { s with input := rest }
    pure (some line)
  vars
  directory

/-- A memory with files in a directory, given by paths from there. -/
def ofFiles (directory : String) (files : List (String × String)) : Memory :=
  let start : Memory := {}
  let withDirectory := fun (s : Memory) (path : String) =>
    (s.makeDirectories [] (((PathName.join directory path).toList.splitOn '/').map String.ofList)).getD s
  let base := withDirectory start ""
  files.foldl
    (fun s (path, text) =>
      let s := match PathName.parent? path with
        | some parent => withDirectory s parent
        | none => s
      (s.write? directory path text).getD s)
    base

end Memory

end LayeredConfig
