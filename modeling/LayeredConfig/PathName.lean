/-!
# Path names

Names of files as texts, parts separated by slashes. Nothing here looks at the files themselves.
-/

namespace LayeredConfig.PathName

/-- Whether a path starts at the root. -/
def isAbsolute (path : String) : Bool := path.startsWith "/"

/-- A path as seen from a directory. An absolute path stays as it is. -/
def join (dir path : String) : String :=
  if isAbsolute path || dir.isEmpty then path
  else if dir.endsWith "/" then dir ++ path
  else dir ++ "/" ++ path

/-- The parts of a path between slashes, without empty ones. -/
def parts (path : String) : List String :=
  ((path.toList.splitOn '/').filter (!·.isEmpty)).map String.ofList

/-- The parts that name a place of their own: a dot counts only at the start of a relative path. -/
def components (path : String) : List String :=
  match isAbsolute path, parts path with
  | false, "." :: rest => "." :: rest.filter (· != ".")
  | _, all => all.filter (· != ".")

/-- Everything up to the last character that is no slash. -/
def dropSlashes (cs : List Char) : List Char :=
  (cs.reverse.dropWhile (· == '/')).reverse

/-- The path without its last part. A path without parts has no parent. -/
def parent? (path : String) : Option String :=
  if (parts path).isEmpty then none
  else
    let front := ((dropSlashes path.toList).reverse.dropWhile (· != '/')).reverse
    let parent := dropSlashes front
    some (if parent.isEmpty && isAbsolute path then "/" else String.ofList parent)

/-- The extension of a file name: what follows the last dot, unless nothing stands before it. -/
def extension? (path : String) : Option String :=
  match (components path).getLast? with
  | none | some ".." | some "." => none
  | some name =>
    match (name.toList.splitOn '.').reverse with
    | last :: before :: earlier =>
      if earlier.isEmpty && before.isEmpty then none else some (String.ofList last)
    | _ => none

/-- Whether a path goes before another: components are compared from left to right, each by its
characters. -/
def precedes (a b : String) : Bool := components a < components b

/-- Paths in order. -/
def sorted (paths : List String) : List String :=
  paths.mergeSort fun a b => !precedes b a

end LayeredConfig.PathName
