import LayeredConfig.Node
import LayeredConfig.Text.Quoted

/-!
# What can go wrong

One type for each activity, one constructor for each cause, and one function that gives the text of
each. The text of a cause is fixed; everything else asks for the cause.
-/

namespace LayeredConfig

/-- Why an edit is refused. -/
inductive EditError where
  | nodeNotFound (what : String)
  | unknownHandle
  | duplicateKey (key parent : String)
  | notAContainer (path : String)
  | cannotDeleteRoot (path : String)
  | typeMismatch (value : String) (type : ValueType)
  | unknownValueType (name : String)
  | emptyMarker (opening closing : String)
  | notComposing
  deriving DecidableEq, Repr, Inhabited

/-- The text of a refused edit. -/
def EditError.message : EditError → String
  | .nodeNotFound what => "node not found: " ++ what
  | .unknownHandle => "node not found: <ref>"
  | .duplicateKey key parent => "duplicate key '" ++ key ++ "' under " ++ parent
  | .notAContainer path => "cannot add children to scalar node: " ++ path
  | .cannotDeleteRoot path => "cannot delete tree root: " ++ path
  | .typeMismatch value type =>
    "value " ++ Text.quoted value ++ " does not match type " ++ type.name
  | .unknownValueType name => "unknown value type: " ++ name
  | .emptyMarker opening closing =>
    "invalid variable syntax: prefix and suffix must not be empty (got " ++ Text.quoted opening
      ++ " / " ++ Text.quoted closing ++ ")"
  | .notComposing => "no property is being composed"

/-- Why a text is not a configuration. -/
inductive LoadError where
  /-- The text is not a document at all. -/
  | malformed
  | anchorWithoutName (number : Nat)
  | aliasWithoutAnchor (number : Nat)
  | documentNotMapping
  | unexpectedTopKey (key : String)
  | treeNotMapping (key : String)
  | mergeListsOther (key : String)
  | mergeOfScalar (key : String)
  | duplicateKey (key parent : String)
  | keyNotScalar (line : Nat)
  | environmentNotMapping (key : String)
  deriving DecidableEq, Repr, Inhabited

/-- The text of a failure to load, without the words that all of them start with. -/
def LoadError.detail : LoadError → String
  | .malformed => "<syntax>"
  | .anchorWithoutName number => s!"anchor #{number} has no name"
  | .aliasWithoutAnchor number => s!"alias #{number} has no anchor"
  | .documentNotMapping => "configuration document must be a mapping"
  | .unexpectedTopKey key =>
    "unexpected top-level key '" ++ key ++ "', expected '" ++ defaultKey ++ "' or '"
      ++ environmentsKey ++ "'"
  | .treeNotMapping key => "'" ++ key ++ "' must be a mapping"
  | .mergeListsOther key => "'<<' under '" ++ key ++ "' may only list aliases"
  | .mergeOfScalar key => "'<<' under '" ++ key ++ "' must reference a mapping"
  | .duplicateKey key parent => "duplicate key '" ++ key ++ "' under '" ++ parent ++ "'"
  | .keyNotScalar line => s!"line {line}: only scalar keys are supported"
  | .environmentNotMapping key => "environment '" ++ key ++ "' must be a mapping"

/-- What a document has no way to write. -/
inductive Unwritable where
  | anchoredScalarAlias
  | anchoredArrayAlias
  | arrayMerge
  deriving DecidableEq, Repr, Inhabited

/-- The text of what cannot be written. -/
def Unwritable.message : Unwritable → String
  | .anchoredScalarAlias => "an aliased scalar cannot also carry an anchor"
  | .anchoredArrayAlias => "an aliased array cannot also carry an anchor"
  | .arrayMerge => "a non-empty array cannot merge aliases"

/-- Why a configuration cannot be read, written or compiled. -/
inductive CompileError where
  | unknownEnvironment (name : String)
  | inheritanceCycle (chain : List String)
  | missingInherited (environment target : String)
  | invalidInherits (environment : String)
  | unresolvedAlias (name path : String)
  | aliasCycle (name path : String)
  | unresolvedVariable (name path : String)
  | variableCycle (name path : String)
  | nonScalarVariable (name path : String)
  | unrepresentable (path : String) (reason : Unwritable)
  | unreadable (cause : LoadError)
  deriving DecidableEq, Repr, Inhabited

/-- The text of a failure to read, write or compile. -/
def CompileError.message : CompileError → String
  | .unknownEnvironment name => "environment not found: " ++ name
  | .inheritanceCycle chain => "cyclic inheritance detected: " ++ " -> ".intercalate chain
  | .missingInherited environment target =>
    "environment '" ++ environment ++ "' inherits from unknown environment '" ++ target ++ "'"
  | .invalidInherits environment =>
    "environment '" ++ environment
      ++ "' has an invalid 'inherits' value (expected an environment name)"
  | .unresolvedAlias name path =>
    "alias '*" ++ name ++ "' at " ++ path ++ " references an undefined anchor"
  | .aliasCycle name path => "alias '*" ++ name ++ "' at " ++ path ++ " refers back to itself"
  | .unresolvedVariable name path => "variable '" ++ name ++ "' at " ++ path ++ " cannot be resolved"
  | .variableCycle name path => "cyclic variable reference '" ++ name ++ "' at " ++ path
  | .nonScalarVariable name path =>
    "variable '" ++ name ++ "' at " ++ path ++ " references a non-scalar property"
  | .unrepresentable path reason => path ++ " cannot be written as YAML: " ++ reason.message
  | .unreadable cause => "invalid YAML: " ++ cause.detail

/-- Why settings cannot be loaded. -/
inductive SettingsError where
  | unreadable (path reason : String)
  | malformed (path : String)
  | markers (cause : EditError)
  deriving DecidableEq, Repr, Inhabited

/-- The text of a failure to load settings. -/
def SettingsError.message : SettingsError → String
  | .unreadable path reason => "config error: read " ++ path ++ ": " ++ reason
  | .malformed path => "config error: parse " ++ path ++ ": <toml>"
  | .markers cause => "config error: " ++ cause.message

/-- Why a service fails: a refused edit, a failure of the compiler or of the settings, or an outside
operation that did not work. -/
inductive ServiceError where
  | edit (cause : EditError)
  | compile (cause : CompileError)
  | settings (cause : SettingsError)
  | failed (operation : String)
  deriving DecidableEq, Repr, Inhabited

/-- The text of a failed service. -/
def ServiceError.message : ServiceError → String
  | .edit cause => cause.message
  | .compile cause => cause.message
  | .settings cause => cause.message
  | .failed operation => "operation failed: " ++ operation

end LayeredConfig
