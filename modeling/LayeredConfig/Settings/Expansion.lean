/-!
# Expansion of paths

A path may name variables of the environment, as `$NAME`, `${NAME}` or `${NAME:-default}`, and start
with `~` for the home directory. Two dollars stand for one. If a variable without a default is
missing, the path is left as it is.
-/

namespace LayeredConfig.Settings

/-- The variables of the environment. -/
abbrev Variables := List (String × String)

/-- Whether a character may stand in the name of a variable without braces. -/
def isNameChar (c : Char) : Bool := c.isAlphanum || c == '_'

/-- The characters before the first closing brace, and those behind it. -/
def uptoBrace? (cs : List Char) : Option (List Char × List Char) :=
  match cs.dropWhile (· != '\x7d') with
  | [] => none
  | _ :: rest => some (cs.takeWhile (· != '\x7d'), rest)

/-- The name and the default of what stands between braces. A name is not empty if a default
follows. -/
def nameAndDefault (cs : List Char) : List Char × Option (List Char) :=
  let rec cut (before : List Char) : List Char → List Char × Option (List Char)
    | [] => (before.reverse, none)
    | ':' :: '-' :: rest =>
      if before.isEmpty then (':' :: '-' :: rest, none) else (before.reverse, some rest)
    | c :: rest => cut (c :: before) rest
  cut [] cs

/-- The value of a variable, or else the default. -/
def valueOf? (vars : Variables) (name : List Char) (default : Option (List Char)) :
    Option (List Char) :=
  ((vars.lookup (String.ofList name)).map String.toList).or default

/-- A text with its variables replaced; nothing if one is missing. Each round takes at least one
character, so the length of the text bounds the rounds. -/
def substituteVariables (vars : Variables) : Nat → List Char → Option (List Char)
  | 0, _ => some []
  | _, [] => some []
  | fuel + 1, '$' :: '$' :: rest => (substituteVariables vars fuel rest).map ('$' :: ·)
  | fuel + 1, '$' :: '\x7b' :: rest =>
    match uptoBrace? rest with
    | none => (substituteVariables vars fuel rest).map ('$' :: '\x7b' :: ·)
    | some (inner, rest) => do
      let (name, default) := nameAndDefault inner
      let value ← valueOf? vars name default
      let after ← substituteVariables vars fuel rest
      pure (value ++ after)
  | fuel + 1, '$' :: rest =>
    let name := rest.takeWhile isNameChar
    if name.isEmpty then (substituteVariables vars fuel rest).map ('$' :: ·)
    else do
      let value ← valueOf? vars name none
      let after ← substituteVariables vars fuel (rest.dropWhile isNameChar)
      pure (value ++ after)
  | fuel + 1, c :: rest => (substituteVariables vars fuel rest).map (c :: ·)

/-- A path with the home directory for a tilde that is its first part. -/
def expandHome (home : Option String) (cs : List Char) : List Char :=
  match cs, home with
  | ['~'], some home => home.toList
  | '~' :: '/' :: rest, some home => home.toList ++ '/' :: rest
  | _, _ => cs

/-- A path with variables and the home directory expanded. A tilde that a variable brings in is
none. -/
def expandPath (home : Option String) (vars : Variables) (path : String) : String :=
  let cs := path.toList
  match substituteVariables vars cs.length cs with
  | none => path
  | some after => String.ofList (if cs.head? = some '~' then expandHome home after else after)

end LayeredConfig.Settings
