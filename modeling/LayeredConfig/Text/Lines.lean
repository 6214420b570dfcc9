/-!
# Splitting a text

`splitAt sep` cuts a text at each occurrence of one character and keeps empty parts, so joining the
parts with that character gives the text back. `lines` cuts at line feeds, drops the carriage return
that stands directly before a line feed, and has no empty last line.
-/

namespace LayeredConfig.Text

/-- The parts of a text between the occurrences of `sep`. There is always at least one part. -/
def splitAt (sep : Char) : List Char → List (List Char)
  | [] => [[]]
  | c :: cs =>
    if c = sep then [] :: splitAt sep cs
    else match splitAt sep cs with
      | [] => [[c]]
      | part :: parts => (c :: part) :: parts

theorem splitAt_ne_nil (sep : Char) (cs : List Char) : splitAt sep cs ≠ [] := by
  cases cs with
  | nil => simp [splitAt]
  | cons c cs =>
    simp only [splitAt]
    split
    · simp
    · split <;> simp

/-- The parts between the occurrences of `sep`, as strings. -/
def split (sep : Char) (s : String) : List String :=
  (splitAt sep s.toList).map String.ofList

/-- A line without the carriage return at its end. -/
def dropReturn (line : List Char) : List Char :=
  match line.getLast? with
  | some '\r' => line.dropLast
  | _ => line

/-- The lines of a text, without their line ends. -/
def linesOf (cs : List Char) : List (List Char) :=
  match (splitAt '\n' cs).reverse with
  | [] => []
  | last :: before =>
    before.reverse.map dropReturn ++ (if last.isEmpty then [] else [last])

/-- The lines of a text, without their line ends, as strings. -/
def lines (s : String) : List String :=
  (linesOf s.toList).map String.ofList

end LayeredConfig.Text
