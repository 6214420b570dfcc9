import LayeredConfig.Arguments.Grammar

/-!
# Reading command lines

The arguments are read from left to right, each subcommand by its own grammar. What was found is a
list of `Level`s, the command first, then the subcommand, and so on.

A value that stands apart from its option, and a value by position, is *pending* until the next
option is met or the line ends; only then is it judged. So of two faults the one that is told first
is not always the one that stands first. The faults of a subcommand come before those that the end
of the line brings to light in the command above it.
-/

namespace LayeredConfig.Arguments

/-- Why a command line is not carried out. -/
inductive Fault where
  | helpWanted
  | versionWanted
  /-- A command that needs a subcommand got nothing at all. -/
  | nothingGiven
  | missingSubcommand
  | unknownSubcommand (text : String)
  | unknownArgument (text : String)
  | missingArgument (name : String)
  | conflict (name other : String)
  | invalidValue (name text : String)
  | surplusValue (name text : String)
  deriving DecidableEq, Repr

/-- The exit code of a fault: help and version are what was asked for. -/
def Fault.exitCode : Fault → Nat
  | .helpWanted | .versionWanted => 0
  | _ => 2

/-- What an argument is. -/
inductive Parameter where
  | option (spec : OptionSpec)
  | positional (spec : PositionalSpec)
  deriving DecidableEq, Repr

namespace Parameter

/-- The name of an argument. -/
def name : Parameter → String
  | .option spec => spec.name
  | .positional spec => spec.name

/-- The texts that an argument may be. -/
def admitted : Parameter → Admitted
  | .option spec => spec.admitted
  | .positional spec => spec.admitted

end Parameter

/-- What was found of one command. -/
structure Level where
  /-- The subcommand's name; the command itself has none. -/
  command : String
  /-- The values on the command line by name. An option without a value has as many empty ones as
  it was given times. -/
  given : List (String × List String) := []
  /-- The values that variables gave. -/
  fallback : List (String × String) := []
  deriving Repr

namespace Level

/-- The values given under a name. -/
def values (l : Level) (name : String) : List String := (l.given.lookup name).getD []

/-- Whether an argument was given. -/
def has (l : Level) (name : String) : Bool := (l.given.lookup name).isSome

/-- Whether an argument was given, or a variable gave it. -/
def present (l : Level) (name : String) : Bool := l.has name || (l.fallback.lookup name).isSome

/-- The level with one more value under a name. -/
def add (l : Level) (name value : String) : Level :=
  if l.has name then
    { l with given := l.given.map fun (n, vs) => if n = name then (n, vs ++ [value]) else (n, vs) }
  else { l with given := l.given ++ [(name, [value])] }

end Level

/-- The state of reading one command. -/
structure State where
  level : Level
  /-- What waits to be judged, with its value if it has one by now. -/
  pending : Option (Parameter × Option String) := none
  /-- The option whose value is the next argument. -/
  expecting : Option OptionSpec := none
  /-- The number of values by position so far. -/
  position : Nat := 0
  /-- Only values by position follow. -/
  onlyValues : Bool := false

namespace State

/-- The value of an argument judged. -/
def judge (s : State) (p : Parameter) (value : Option String) : Except Fault State :=
  match value with
  | none => .error (.invalidValue p.name "")
  | some text =>
    let repeatable := match p with
      | .option spec => spec.kind == .values
      | .positional _ => false
    if s.level.has p.name && !repeatable then .error (.conflict p.name p.name)
    else if p.admitted.admits text then .ok { s with level := s.level.add p.name text }
    else .error (.invalidValue p.name text)

/-- What waits judged. -/
def settle (s : State) : Except Fault State :=
  match s.pending with
  | none => .ok s
  | some (p, value) => State.judge { s with pending := none } p value

/-- An option that takes no value. -/
def raise (s : State) (o : OptionSpec) : Except Fault State := do
  let s ← s.settle
  match o.kind with
  | .help => throw .helpWanted
  | .version => throw .versionWanted
  | .flag =>
    if s.level.has o.name then throw (.conflict o.name o.name)
    else pure { s with level := s.level.add o.name "", expecting := none }
  | _ => pure { s with level := s.level.add o.name "", expecting := none }

/-- An option with the value attached to it, if there is one. -/
def open? (s : State) (o : OptionSpec) (attached : Option String) : Except Fault State := do
  let s ← s.settle
  match attached with
  | some text => State.judge { s with expecting := none } (.option o) (some text)
  | none => pure { s with pending := some (.option o, none), expecting := some o }

/-- A long option, the text behind the two dashes being given. -/
def long (g : Grammar) (s : State) (text : List Char) : Except Fault State :=
  let name := String.ofList (text.takeWhile (· != '='))
  let attached := match text.dropWhile (· != '=') with
    | _ :: value => some (String.ofList value)
    | [] => none
  match g.long? name with
  | none => .error (.unknownArgument ("--" ++ name))
  | some o =>
    if o.takesValue then s.open? o attached
    else match attached with
      | some value => .error (.surplusValue o.name value)
      | none => s.raise o

/-- Short options, the letters behind the dash being given. The letters after one that takes a value
are its value. -/
def short (g : Grammar) (s : State) : List Char → Except Fault State
  | [] => .ok s
  | c :: rest =>
    match g.letter? c with
    | none => .error (.unknownArgument (String.ofList ['-', c]))
    | some o =>
      if o.takesValue then
        s.open? o (match rest with
          | [] => none
          | '=' :: value => some (String.ofList value)
          | value => some (String.ofList value))
      else do
        let s ← s.raise o
        s.short g rest

/-- A value by position. -/
def positional (g : Grammar) (s : State) (text : String) : Except Fault State :=
  match g.positionals[s.position]? with
  | some spec => do
    let s ← s.settle
    pure { s with pending := some (.positional spec, some text), position := s.position + 1 }
  | none =>
    if s.onlyValues && g.isSubcommand text then .error (.unknownArgument text)
    else if !g.subcommands.isEmpty && g.positionals.isEmpty then .error (.unknownSubcommand text)
    else .error (.unknownArgument text)

/-- The state after one argument that is no subcommand. -/
def argument (g : Grammar) (s : State) (text : String) : Except Fault State :=
  if s.onlyValues then s.positional g text
  else
    let dashes := s.expecting.any (·.dashes)
    match text.toList, dashes with
    | ['-', '-'], false => .ok { s with onlyValues := true }
    | '-' :: '-' :: rest, false => s.long g rest
    | '-' :: c :: rest, false => s.short g (c :: rest)
    | _, _ =>
      match s.expecting with
      | some o => .ok { s with pending := some (.option o, some text), expecting := none }
      | none => s.positional g text

/-- The values of variables for options that were not given. -/
def fallBack (vars : List (String × String)) (s : State) :
    List OptionSpec → Except Fault State
  | [] => .ok s
  | o :: os =>
    match o.variableName.bind (List.lookup · vars) with
    | none => s.fallBack vars os
    | some text =>
      if s.level.has o.name then s.fallBack vars os
      else if o.admitted.admits text then
        let level := { s.level with fallback := s.level.fallback ++ [(o.name, text)] }
        State.fallBack vars { s with level } os
      else .error (.invalidValue o.name text)

/-- The first two options that cannot go with each other. -/
def conflict? (g : Grammar) (l : Level) : Option (String × String) :=
  g.options.findSome? fun o =>
    if l.present o.name then (o.excludes.find? l.present).map (o.name, ·) else none

/-- The level when the line has ended. -/
def finish (g : Grammar) (vars : List (String × String)) (s : State) (subcommand : Bool) :
    Except Fault Level := do
  let s ← s.settle
  let s ← s.fallBack vars g.options
  let l := s.level
  if g.needsSubcommand && !subcommand then
    throw (if l.given.isEmpty && l.fallback.isEmpty then .nothingGiven else .missingSubcommand)
  if let some (name, other) := conflict? g l then
    throw (.conflict name other)
  if let some spec := g.positionals.find? fun spec => spec.required && !l.has spec.name then
    throw (.missingArgument spec.name)
  pure l

end State

/-- What the subcommand `help` is asked about: a subcommand of a subcommand, and so on. -/
def helpTopic (g : Grammar) : List String → Fault
  | [] => .helpWanted
  | text :: rest =>
    if !g.isSubcommand text then .unknownSubcommand text
    else match g.subcommands.lookup text with
      | some sub => helpTopic sub rest
      | none => if rest.isEmpty then .helpWanted else .unknownSubcommand text

/-- The levels of a command line by a grammar. -/
def read (g : Grammar) (vars : List (String × String)) (s : State) :
    List String → Except Fault (List Level)
  | [] => do
    let level ← s.finish g vars false
    pure [level]
  | text :: rest =>
    if !s.onlyValues && s.expecting.isNone && g.isSubcommand text then
      match g.subcommands.lookup text with
      | none => .error (helpTopic g rest)
      | some sub => do
        let below ← read sub vars { level := { command := text } } rest
        let level ← s.finish g vars true
        pure (level :: below)
    else do
      let s ← s.argument g text
      read g vars s rest

/-- The levels of a command line. -/
def levels (g : Grammar) (vars : List (String × String)) (args : List String) :
    Except Fault (List Level) :=
  read g vars { level := { command := "" } } args

/-- The value of an option that every level takes: the deepest one counts, and any on the command
line before a variable. -/
def shared? (ls : List Level) (name : String) : Option String :=
  (ls.reverse.findSome? fun l => (l.values name).getLast?).or
    (ls.reverse.findSome? fun l => l.fallback.lookup name)

end LayeredConfig.Arguments
