/-!
# Writing values of a settings document

A string is written in the plainest kind of quotes that needs no escapes: basic, literal, basic over
several lines, literal over several lines. If every kind needs escapes, it is a basic string, over
several lines if it has a line end.
-/

namespace LayeredConfig.Toml

/-- The length of the longest run of a character. -/
def longestRun (x : Char) (cs : List Char) : Nat :=
  let step := fun ((run, longest) : Nat × Nat) c =>
    if c = x then (run + 1, max longest (run + 1)) else (0, longest)
  (cs.foldl step (0, 0)).2

/-- Whether a character can only be written as an escape. -/
def isControl (c : Char) : Bool := (c < ' ' || c == '\x7f') && c != '\t' && c != '\n'

/-- The kinds of quotes. -/
inductive QuoteStyle where
  | basic
  | literal
  | basicLines
  | literalLines
  deriving DecidableEq, Repr

/-- The kind of quotes in which a string is written. -/
def QuoteStyle.of (cs : List Char) : QuoteStyle :=
  let control := cs.any isControl
  let backslash := cs.contains '\\'
  let newline := cs.contains '\n'
  let singles := longestRun '\'' cs
  let doubles := longestRun '"' cs
  if !control && !backslash && doubles == 0 && !newline then .basic
  else if !control && singles == 0 && !newline then .literal
  else if !control && !backslash && doubles ≤ 2 then .basicLines
  else if !control && singles ≤ 2 then .literalLines
  else if newline then .basicLines
  else .basic

/-- Four hexadecimal digits. -/
def hexDigits (n : Nat) : List Char :=
  let ds := (Nat.toDigits 16 n).map Char.toUpper
  List.replicate (4 - ds.length) '0' ++ ds

/-- A character of a basic string other than a double quote. -/
def escapeChar (lines : Bool) (c : Char) : List Char :=
  if c = '\x08' then ['\\', 'b']
  else if c = '\t' then ['\\', 't']
  else if c = '\n' then (if lines then ['\n'] else ['\\', 'n'])
  else if c = '\x0c' then ['\\', 'f']
  else if c = '\r' then ['\\', 'r']
  else if c = '\\' then ['\\', '\\']
  else if isControl c then '\\' :: 'u' :: hexDigits c.toNat
  else [c]

/-- The characters of a basic string. Over several lines two double quotes in a row stand as they
are; `run` counts those right before. -/
def escapeBasic (lines : Bool) (run : Nat) : List Char → List Char
  | [] => []
  | c :: cs =>
    if c = '"' then
      if lines && run < 2 then '"' :: escapeBasic lines (run + 1) cs
      else '\\' :: '"' :: escapeBasic lines 0 cs
    else escapeChar lines c ++ escapeBasic lines 0 cs

/-- A string in quotes. -/
def writeString (text : String) : String :=
  let cs := text.toList
  let open? := if cs.contains '\n' then "\n" else ""
  match QuoteStyle.of cs with
  | .basic => "\"" ++ String.ofList (escapeBasic false 0 cs) ++ "\""
  | .literal => "'" ++ text ++ "'"
  | .basicLines => "\"\"\"" ++ open? ++ String.ofList (escapeBasic true 0 cs) ++ "\"\"\""
  | .literalLines => "'''" ++ open? ++ text ++ "'''"

/-- An array of strings: on one line if there is at most one, else one to a line. -/
def writeArray (texts : List String) : String :=
  match texts with
  | [] => "[]"
  | [text] => "[" ++ writeString text ++ "]"
  | _ => "[\n" ++ String.join (texts.map fun text => "    " ++ writeString text ++ ",\n") ++ "]"

/-- An entry on a line of its own. -/
def writeEntry (key value : String) : String := key ++ " = " ++ value ++ "\n"

end LayeredConfig.Toml
