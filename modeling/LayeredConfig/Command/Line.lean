import LayeredConfig.Arguments.Reading
import LayeredConfig.Command

/-!
# The command line

The grammar of the program's command line, and the invocation that its levels stand for.
-/

namespace LayeredConfig.Command

open Arguments

/-- The variable that names the configuration file. -/
def fileVariable : String := "YAMLENV_FILE"

/-- The options that every command takes. -/
def commonOptions : List OptionSpec :=
  [{ name := "debug", letter := some 'd', kind := .count },
   { name := "project-dir", letter := some 'C', admitted := .nonEmpty },
   { name := "file", letter := some 'f', admitted := .nonEmpty, variableName := some fileVariable },
   { name := "help", letter := some 'h', kind := .help },
   { name := "version", letter := some 'V', kind := .version }]

/-- The options that describe a property. -/
def propertyOptions : List OptionSpec :=
  [{ name := "type", letter := some 't' },
   { name := "value", letter := some 'v', dashes := true },
   { name := "anchor", excludes := ["no-anchor"] },
   { name := "no-anchor", kind := .flag },
   { name := "alias", kind := .values, excludes := ["no-aliases"] },
   { name := "no-aliases", kind := .flag },
   { name := "comment" }]

/-- The grammar of a command without subcommands. -/
def leafGrammar (options : List OptionSpec) (positionals : List PositionalSpec) : Grammar :=
  .mk (options ++ commonOptions) positionals [] false

/-- The shells that completions can be asked for. -/
def shells : List String := ["bash", "elvish", "fish", "powershell", "zsh"]

/-- The grammar of the command line. -/
def grammar : Grammar :=
  let path : PositionalSpec := { name := "path" }
  .mk commonOptions []
    [("compile", leafGrammar [{ name := "env", letter := some 'e' }] []),
     ("validate", leafGrammar [] []),
     ("tree", leafGrammar [] []),
     ("preview", leafGrammar [] [path]),
     ("keys", leafGrammar [] [path]),
     ("add", leafGrammar propertyOptions [{ name := "parent" }, { name := "key", required := false }]),
     ("edit", leafGrammar ({ name := "key", letter := some 'k' } :: propertyOptions) [path]),
     ("delete", leafGrammar [{ name := "yes", letter := some 'y', kind := .flag }] [path]),
     ("list", leafGrammar [] [{ name := "dir", required := false, admitted := .nonEmpty }]),
     ("config", .mk commonOptions []
       [("show", leafGrammar [] []),
        ("init", leafGrammar [{ name := "global", letter := some 'g', kind := .flag }] []),
        ("path", leafGrammar [] [])] true),
     ("completion", leafGrammar [] [{ name := "shell", admitted := .oneOf shells }])]
    false

/-- The value of an argument that is given at most once. -/
def value? (l : Level) (name : String) : Option String := (l.values name).head?

/-- What a level says about a property. -/
def fieldsOf (l : Level) : PropertyFields where
  type := value? l "type"
  value := value? l "value"
  anchor := value? l "anchor"
  withoutAnchor := l.has "no-anchor"
  aliases := l.values "alias"
  withoutAliases := l.has "no-aliases"
  comment := value? l "comment"

/-- The command that the levels below the first ask for. -/
def ofLevels? : List Level → Option Command
  | [] => none
  | l :: below =>
    let text := fun (name : String) => (value? l name).getD ""
    match l.command, below with
    | "compile", _ => some (.compile (value? l "env"))
    | "validate", _ => some .validate
    | "tree", _ => some .tree
    | "preview", _ => some (.preview (text "path"))
    | "keys", _ => some (.keys (text "path"))
    | "add", _ => some (.add (text "parent") (value? l "key") (fieldsOf l))
    | "edit", _ => some (.edit (text "path") (value? l "key") (fieldsOf l))
    | "delete", _ => some (.delete (text "path") (l.has "yes"))
    | "list", _ => some (.list (value? l "dir"))
    | "completion", _ => some (.completion (text "shell"))
    | "config", sub :: _ =>
      match sub.command with
      | "show" => some (.settings .display)
      | "init" => some (.settings (.create (sub.has "global")))
      | "path" => some (.settings .paths)
      | _ => none
    | _, _ => none

end LayeredConfig.Command

namespace LayeredConfig

/-- The invocation that arguments stand for, given the variables of the environment. -/
def Invocation.ofArguments (vars : List (String × String)) (args : List String) :
    Except Arguments.Fault Invocation := do
  let ls ← Arguments.levels Command.grammar vars args
  pure
    { project := Arguments.shared? ls "project-dir"
      file := Arguments.shared? ls "file"
      command := Command.ofLevels? (ls.drop 1) }

end LayeredConfig
