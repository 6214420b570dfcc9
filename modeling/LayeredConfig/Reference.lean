import LayeredConfig.Text.Quoted

/-!
# References to variables

A string value may refer to other values by name: a reference is the name between an opening and a
closing text, `${host}` by default. `Markers.split` cuts a text into the gaps and the names of its
references, from left to right. A name is the shortest non-empty run of characters within one line
that the closing text follows; where an opening text starts no such reference, the search goes on at
the next character. Everything else here is said through `split`, apart from `renamed?`, which
replaces one marker literally.
-/

namespace LayeredConfig

/-- The texts around the name of a reference. Neither is empty. -/
structure Markers where
  opening : String
  closing : String
  opening_ne : opening ≠ ""
  closing_ne : closing ≠ ""
  deriving DecidableEq

namespace Markers

/-- The markers `${` and `}`. -/
def standard : Markers where
  opening := "$\x7b"
  closing := "\x7d"
  opening_ne := by decide
  closing_ne := by decide

instance : Inhabited Markers := ⟨standard⟩

/-- The markers with these texts, if neither is empty. -/
def ofTexts? (opening closing : String) : Option Markers :=
  if h : opening ≠ "" ∧ closing ≠ "" then some ⟨opening, closing, h.1, h.2⟩ else none

/-- The reference to a name. -/
def mark (m : Markers) (name : String) : String :=
  m.opening ++ name ++ m.closing

end Markers

/-- The text after a given opening, if the text starts with it. -/
def afterOpening? : List Char → List Char → Option (List Char)
  | [], text => some text
  | _ :: _, [] => none
  | o :: opening, c :: text => if o = c then afterOpening? opening text else none

theorem afterOpening?_eq_some {opening text rest : List Char} :
    afterOpening? opening text = some rest ↔ text = opening ++ rest := by
  induction opening generalizing text with
  | nil => simp [afterOpening?, eq_comm]
  | cons o opening ih =>
    cases text with
    | nil => simp [afterOpening?]
    | cons c text =>
      by_cases h : o = c
      · subst h; simp [afterOpening?, ih]
      · simp [afterOpening?, h, Ne.symm h]

/-- The characters before the first occurrence of `closing` within the line, and those after it. -/
def uptoClosing? (closing : List Char) : List Char → Option (List Char × List Char)
  | [] => none
  | c :: text =>
    match afterOpening? closing (c :: text) with
    | some rest => some ([], rest)
    | none =>
      if c = '\n' then none
      else (uptoClosing? closing text).map fun (name, rest) => (c :: name, rest)

theorem uptoClosing?_eq_append {closing text name rest : List Char}
    (h : uptoClosing? closing text = some (name, rest)) : text = name ++ closing ++ rest := by
  induction text generalizing name with
  | nil => simp [uptoClosing?] at h
  | cons c text ih =>
    simp only [uptoClosing?] at h
    split at h
    · rename_i found
      cases h
      simpa using afterOpening?_eq_some.1 found
    · split at h
      · cases h
      · obtain ⟨⟨name', rest'⟩, found, same⟩ := Option.map_eq_some_iff.1 h
        cases same
        simp [ih found]

/-- The name at the start of a text that `closing` ends, and the rest after it. The first character
belongs to the name even where `closing` occurs. -/
def nameAt? (closing : List Char) : List Char → Option (List Char × List Char)
  | [] => none
  | c :: text =>
    if c = '\n' then none
    else (uptoClosing? closing text).map fun (name, rest) => (c :: name, rest)

theorem nameAt?_eq_append {closing text name rest : List Char}
    (h : nameAt? closing text = some (name, rest)) : text = name ++ closing ++ rest := by
  cases text with
  | nil => simp [nameAt?] at h
  | cons c text =>
    simp only [nameAt?] at h
    split at h
    · cases h
    · obtain ⟨⟨name', rest'⟩, found, same⟩ := Option.map_eq_some_iff.1 h
      cases same
      simp [uptoClosing?_eq_append found]

/-- The reference at the start of a text: its name and the rest of the text. -/
def Markers.referenceAt? (m : Markers) (text : List Char) : Option (List Char × List Char) :=
  (afterOpening? m.opening.toList text).bind (nameAt? m.closing.toList)

theorem Markers.referenceAt?_eq_append {m : Markers} {text name rest : List Char}
    (h : m.referenceAt? text = some (name, rest)) :
    text = m.opening.toList ++ name ++ m.closing.toList ++ rest := by
  obtain ⟨body, opened, found⟩ := Option.bind_eq_some_iff.1 h
  rw [afterOpening?_eq_some.1 opened, nameAt?_eq_append found]
  simp

theorem Markers.referenceAt?_length_lt {m : Markers} {text name rest : List Char}
    (h : m.referenceAt? text = some (name, rest)) : rest.length < text.length := by
  have opening_pos : 0 < m.opening.toList.length := by
    rw [List.length_pos_iff]
    intro empty
    exact m.opening_ne (String.toList_eq_nil_iff.1 empty)
  rw [referenceAt?_eq_append h]
  simp only [List.length_append]
  omega

/-- A text cut at its references: each reference with the gap before it, and the gap at the end. -/
structure Split where
  marked : List (List Char × List Char) := []
  tail : List Char := []
  deriving DecidableEq, Repr, Inhabited

/-- A cut text with one more character in its first gap. -/
def Split.push (c : Char) (s : Split) : Split :=
  match s.marked with
  | [] => { s with tail := c :: s.tail }
  | (gap, name) :: more => { s with marked := (c :: gap, name) :: more }

namespace Markers

/-- The gaps and names of a text. -/
def split (m : Markers) (text : List Char) : Split :=
  match text with
  | [] => {}
  | c :: cs =>
    match _ : m.referenceAt? (c :: cs) with
    | some (name, rest) =>
      let after := m.split rest
      { after with marked := ([], name) :: after.marked }
    | none => (m.split cs).push c
termination_by text.length
decreasing_by
  · exact referenceAt?_length_lt (by assumption)
  · simp

/-- The names that a text refers to, in order and with repetitions. -/
def references (m : Markers) (text : String) : List String :=
  (m.split text.toList).marked.map fun (_, name) => String.ofList name

/-- Whether a text has a reference. -/
def hasReferences (m : Markers) (text : String) : Bool :=
  !(m.split text.toList).marked.isEmpty

/-- The text with each reference replaced by what `resolve` gives for its name. The names are asked
for one after the other, from left to right. -/
def substituteM {μ : Type → Type} [Monad μ] (m : Markers) (text : String)
    (resolve : String → μ String) : μ String := do
  let s := m.split text.toList
  let parts ← s.marked.mapM fun (gap, name) => do
    let value ← resolve (String.ofList name)
    pure (gap ++ value.toList)
  pure (String.ofList (parts.flatten ++ s.tail))

/-- The text with each reference replaced by what `resolve` gives for its name, from left to right.
The first failure of `resolve` is the failure of the whole. -/
def substitute {ε : Type} (m : Markers) (text : String) (resolve : String → Except ε String) :
    Except ε String :=
  m.substituteM text resolve

end Markers

/-- Every occurrence of `old` replaced by `new`, from left to right and without overlaps; the second
component counts the replacements. An empty `old` never occurs. -/
def replaceAll (old new : List Char) (text : List Char) : List Char × Nat :=
  match text with
  | [] => ([], 0)
  | c :: cs =>
    match afterOpening? old (c :: cs) with
    | some rest =>
      if _ : rest.length < (c :: cs).length then
        let (after, count) := replaceAll old new rest
        (new ++ after, count + 1)
      else (c :: cs, 0)
    | none =>
      let (after, count) := replaceAll old new cs
      (c :: after, count)
termination_by text.length
decreasing_by
  · assumption
  · exact Nat.lt_succ_self _

namespace Markers

/-- The text with every marker of `old` turned into the marker of `new`, if there is one. -/
def renamed? (m : Markers) (text old new : String) : Option String :=
  let (after, count) :=
    replaceAll (m.mark old).toList (m.mark new).toList text.toList
  if count = 0 then none else some (String.ofList after)

end Markers

/-- The characters with a meaning of their own in a pattern. -/
def patternCharacters : List Char :=
  "\\.+*?()|[]\x7b\x7d^$#&-~".toList

/-- A text as a pattern that matches just this text. -/
def escapePattern (text : String) : String :=
  String.ofList (text.toList.flatMap fun c => if c ∈ patternCharacters then ['\\', c] else [c])

end LayeredConfig
