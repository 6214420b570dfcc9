import Mathlib.Data.List.Induction
import LayeredConfig.Proofs.Yaml.Saved
import LayeredConfig.Yaml.Drafts

/-!
# The comment above a line

Of a line the search for comments sees whether it is a comment and whether it starts with a dash
(`LineKind`). A comment that stands right above a line, with nothing above it to claim, is found there and
claimed whole (`commentAbove_shown`); right below a line with content nothing is found (`Clear.of_content`).
-/

namespace LayeredConfig

namespace Text

theorem trimStart_append {blanks : List Char} (h : ∀ c ∈ blanks, isBlank c) (cs : List Char) :
    trimStart (blanks ++ cs) = trimStart cs := List.dropWhile_append_of_pos h

theorem trimEnd_of_getLast? {cs : List Char} (h : ∀ c ∈ cs.getLast?, isBlank c = false) : trimEnd cs = cs := by
  rw [List.getLast?_eq_head?_reverse] at h
  rw [trimEnd]
  cases last : cs.reverse with
  | nil => rw [List.reverse_eq_nil_iff.1 last]; rfl
  | cons c rest =>
    rw [last] at h
    rw [List.dropWhile_cons_of_neg (by rw [h c rfl]; exact Bool.false_ne_true), ← last, List.reverse_reverse]

theorem splitAt_eq_splitOn (sep : Char) (cs : List Char) : splitAt sep cs = cs.splitOn sep := by
  induction cs with
  | nil => rfl
  | cons c cs ih =>
    rw [splitAt, ih, List.splitOn_cons_eq_if_modifyHead]
    simp only [beq_iff_eq]
    split
    · rfl
    · cases parts : cs.splitOn sep with
      | nil => exact absurd parts (List.splitOn_ne_nil sep cs)
      | cons part rest => rfl

/-! ## Texts of comments -/

/-- A line of a comment: printable characters of ASCII, with no blank at either end. -/
structure IsRemarkLine (line : List Char) : Prop where
  nonempty : line ≠ []
  printable : ∀ c ∈ line, ' ' ≤ c ∧ c ≤ '~'
  first : line.head? ≠ some ' '
  last : line.getLast? ≠ some ' '

theorem isRemarkLine_iff {line : List Char} : IsRemarkLine line ↔
    line ≠ [] ∧ (line.all fun c => ' ' ≤ c ∧ c ≤ '~') ∧ line.head? ≠ some ' ' ∧ line.getLast? ≠ some ' ' := by
  simp only [List.all_eq_true, decide_eq_true_eq]
  exact ⟨fun h => ⟨h.nonempty, h.printable, h.first, h.last⟩, fun h => ⟨h.1, h.2.1, h.2.2.1, h.2.2.2⟩⟩

instance (line : List Char) : Decidable (IsRemarkLine line) := decidable_of_iff _ isRemarkLine_iff.symm

/-- The text of a comment: such lines, joined by line feeds. -/
def IsRemark (text : String) : Prop := ∀ line ∈ splitAt '\n' text.toList, IsRemarkLine line

instance (text : String) : Decidable (IsRemark text) :=
  inferInstanceAs (Decidable (∀ line ∈ splitAt '\n' text.toList, IsRemarkLine line))

theorem isBlank_of_printable {c : Char} (h : ' ' ≤ c ∧ c ≤ '~') (other : c ≠ ' ') : isBlank c = false := by
  have least : 32 ≤ c.toNat := h.1
  have most : c.toNat ≤ 126 := h.2
  have strict : c.toNat ≠ 32 := fun same => other (Char.toNat_inj.1 same)
  simp only [isBlank, blankRanges, List.any_cons, List.any_nil, Bool.or_false, Bool.or_eq_false_iff,
    Bool.and_eq_false_iff, decide_eq_false_iff_not]
  omega

namespace IsRemarkLine

variable {line : List Char} (h : IsRemarkLine line)

include h

theorem isBlank_getLast : ∀ c ∈ line.getLast?, isBlank c = false := fun c hc =>
  isBlank_of_printable (h.printable c (List.mem_of_getLast? hc)) fun same => h.last (same ▸ hc)

end IsRemarkLine

/-- The text of a comment as it can be found: no line ends in a blank, and the last one is not empty. -/
structure IsNote (text : String) : Prop where
  trimmed : ∀ line ∈ splitAt '\n' text.toList, ∀ c ∈ line.getLast?, isBlank c = false
  last : (splitAt '\n' text.toList).getLast? ≠ some []

theorem IsRemark.isNote {text : String} (h : IsRemark text) : IsNote text where
  trimmed line hl := (h line hl).isBlank_getLast
  last none := (h [] (List.mem_of_getLast? none)).nonempty rfl

theorem dropReturn_of_getLast? {line : List Char} (h : ∀ c ∈ line.getLast?, isBlank c = false) :
    dropReturn line = line := by
  unfold dropReturn
  split
  · rename_i back
    exact absurd (h '\r' back) (by decide)
  · rfl

/-- The lines of a comment are its parts. -/
theorem IsNote.linesOf {text : String} (h : IsNote text) : linesOf text.toList = splitAt '\n' text.toList := by
  obtain ⟨trimmed, last⟩ := h
  unfold Text.linesOf
  have some := splitAt_ne_nil '\n' text.toList
  generalize splitAt '\n' text.toList = parts at trimmed last some
  cases parts using List.reverseRecOn with
  | nil => exact absurd rfl some
  | append_singleton before end_ =>
    have same : before.map dropReturn = before :=
      (List.map_congr_left (g := id) fun part hp =>
        dropReturn_of_getLast? (trimmed part (List.mem_append_left _ hp))).trans (List.map_id before)
    have filled : end_.isEmpty = false := by simpa using last
    simp [same, filled]

end Text

namespace Yaml

/-! ## Kinds of lines -/

/-- What the search for comments sees of a line. -/
inductive LineKind where
  | comment (body : List Char)
  /-- A line that starts with a dash. -/
  | dash
  | other
  deriving DecidableEq

/-- The character that a line starts with after its blanks. -/
def ink? (line : List Char) : Option Char := (Text.trimStart line).head?

theorem ink?_append {blanks : List Char} (h : ∀ c ∈ blanks, Text.isBlank c) (line : List Char) :
    ink? (blanks ++ line) = ink? line := by
  rw [ink?, Text.trimStart_append h, ink?]

theorem ink?_append_cons (line : List Char) {c : Char} (ink : Text.isBlank c = false) (rest : List Char) :
    ink? (line ++ c :: rest) = some ((ink? line).getD c) := by
  induction line with
  | nil => simp [ink?, Text.trimStart, ink]
  | cons x line ih =>
    cases blank : Text.isBlank x with
    | true => simpa [ink?, Text.trimStart, blank] using ih
    | false => simp [ink?, Text.trimStart, blank]

namespace LineKind

/-- The kind of a line. -/
def ofLine (line : List Char) : LineKind :=
  match Source.commentText? line with
  | some body => .comment body
  | none => if ink? line = some '-' then .dash else .other

/-- Whether a line is no comment. -/
def IsContent (kind : LineKind) : Prop := ∀ body, kind ≠ .comment body

theorem isContent_dash : IsContent .dash := nofun

theorem isContent_other : IsContent .other := nofun

/-- A line is a comment iff it starts with the sign of one. -/
theorem isSome_commentText?_iff (line : List Char) : (Source.commentText? line).isSome ↔ ink? line = some '#' := by
  unfold Source.commentText? ink?
  cases same : Text.trimStart line with
  | nil => simp [Text.trimEnd]
  | cons c rest =>
    have ink : Text.isBlank c = false := by
      have := List.head?_dropWhile_not Text.isBlank line
      rw [← Text.trimStart, same] at this
      simpa using this
    rw [Text.trimEnd_cons ink, List.head?_cons, Option.some_inj]
    split <;> simp_all

theorem ofLine_eq_of_ink {line : List Char} (content : ink? line ≠ some '#') :
    ofLine line = if ink? line = some '-' then .dash else .other := by
  have none : Source.commentText? line = none := by
    rw [← Option.not_isSome_iff_eq_none, isSome_commentText?_iff]
    exact content
  rw [ofLine, none]

/-- The blanks in front of a line do not matter. -/
theorem ofLine_append {blanks : List Char} (h : ∀ c ∈ blanks, Text.isBlank c) (line : List Char) :
    ofLine (blanks ++ line) = ofLine line := by
  rw [ofLine, ofLine, ink?_append h, Source.commentText?, Text.trimStart_append h, ← Source.commentText?]

theorem ofLine_dash (rest : List Char) : ofLine ('-' :: rest) = .dash := by
  have ink : ink? ('-' :: rest) = some '-' := ink?_append_cons [] rfl rest
  rw [ofLine_eq_of_ink (by rw [ink]; decide), if_pos ink]

theorem ofLine_eq_dash_iff (line : List Char) : ofLine line = .dash ↔ ink? line = some '-' := by
  have signs := isSome_commentText?_iff line
  rw [ofLine]
  cases comment : Source.commentText? line with
  | some body => simp [signs.1 (comment ▸ rfl)]
  | none => simp

theorem ink?_of_comment {line body : List Char} (h : ofLine line = .comment body) : ink? line = some '#' := by
  rw [← isSome_commentText?_iff]
  unfold ofLine at h
  cases comment : Source.commentText? line with
  | some _ => rfl
  | none => rw [comment] at h; dsimp only at h; split at h <;> cases h

/-- A line of a comment as it is written. -/
theorem ofLine_note {line : List Char} (h : ∀ c ∈ line.getLast?, Text.isBlank c = false) :
    ofLine (Text.trimEnd ('#' :: ' ' :: line)) = .comment line := by
  by_cases empty : line = []
  · rw [empty]
    rfl
  · have kept : Text.trimEnd ('#' :: ' ' :: line) = '#' :: ' ' :: line := by
      refine Text.trimEnd_of_getLast? fun c hc => h c ?_
      rwa [List.getLast?_cons_cons, List.getLast?_cons_of_ne_nil empty] at hc
    have start : Text.trimStart ('#' :: ' ' :: line) = '#' :: ' ' :: line := by
      simp [Text.trimStart, show Text.isBlank '#' = false from rfl]
    rw [kept, ofLine, Source.commentText?, start, kept]
    rfl

end LineKind

/-- The kinds of some lines. -/
def kinds (lines : List String) : List LineKind := lines.map fun l => .ofLine l.toList

/-- The lines of a comment, without their signs. -/
def bodies (comment : Option String) : List (List Char) :=
  comment.elim [] fun text => Text.splitAt '\n' text.toList

/-- The kinds of the lines of a comment. -/
theorem kinds_commentLines {comment : Option String} (note : ∀ text ∈ comment, Text.IsNote text) :
    kinds (commentLines comment) = (bodies comment).map .comment := by
  cases comment with
  | none => rfl
  | some text =>
    have note := note text rfl
    rw [kinds, commentLines, Text.lines, note.linesOf, List.map_map, List.map_map]
    refine List.map_congr_left fun line hl => ?_
    have written : ("# " ++ String.ofList line).toList = '#' :: ' ' :: line := by simp
    simp only [Function.comp_apply, written, String.toList_ofList, LineKind.ofLine_note (note.trimmed line hl)]

theorem length_commentLines {comment : Option String} (note : ∀ text ∈ comment, Text.IsNote text) :
    (commentLines comment).length = (bodies comment).length := by
  simpa [kinds] using congrArg List.length (kinds_commentLines note)

/-! ## Lines of a source -/

namespace Source

variable {s : Source} {claimed : Claimed} {n : Nat} {kind : LineKind}

/-- The kind of a line. -/
def kind? (s : Source) (n : Nat) : Option LineKind := (s.lines[n]?).map .ofLine

theorem firstInk?_eq_dash_iff : s.firstInk? n = some '-' ↔ s.kind? n = some .dash := by
  unfold firstInk? kind?
  cases s.lines[n]? with
  | none => simp
  | some line => simpa [ink?] using (LineKind.ofLine_eq_dash_iff line).symm

theorem firstInk?_of_comment {body : List Char} (h : s.kind? n = some (.comment body)) : s.firstInk? n = some '#' := by
  unfold kind? at h
  obtain ⟨line, at_n, comment⟩ := Option.map_eq_some_iff.1 h
  rw [firstInk?, at_n]
  exact LineKind.ink?_of_comment comment

/-- From a line on, a source has lines of these kinds. -/
def Shows (s : Source) : Nat → List LineKind → Prop
  | _, [] => True
  | n, kind :: kinds => s.kind? n = some kind ∧ s.Shows (n + 1) kinds

theorem shows_append {before after : List LineKind} :
    s.Shows n (before ++ after) ↔ s.Shows n before ∧ s.Shows (n + before.length) after := by
  induction before generalizing n with
  | nil => simp [Shows]
  | cons kind before ih =>
    rw [List.cons_append, Shows, Shows, ih, and_assoc, List.length_cons, Nat.add_assoc, Nat.add_comm 1]

theorem Shows.last (h : s.Shows n (before ++ [kind])) : s.kind? (n + before.length) = some kind :=
  (shows_append.1 h).2.1

theorem Shows.of_getElem? {v : List LineKind} (h : ∀ i kind, v[i]? = some kind → s.kind? (n + i) = some kind) :
    s.Shows n v := by
  induction v generalizing n with
  | nil => trivial
  | cons kind v ih =>
    refine ⟨h 0 kind rfl, ih fun i kind at_i => ?_⟩
    rw [Nat.add_assoc, Nat.add_comm 1]
    exact h (i + 1) kind at_i

/-- The source of some lines has those lines, and an empty one below them. -/
theorem kind?_ofText {lines : List String} (nonempty : lines ≠ []) (straight : ∀ l ∈ lines, '\n' ∉ l.toList)
    (blocks : List BlockRange) (n : Nat) :
    (ofText (joinLines lines) blocks).kind? n = (kinds lines ++ [.other])[n]? := by
  have parts : Text.splitAt '\n' (joinLines lines).toList = lines.map String.toList ++ [[]] := by
    rw [joinLines, String.toList_append, String.toList_intercalate, Text.splitAt_eq_splitOn]
    refine (List.splitOn_append_cons_self _ []).trans ?_
    rw [List.splitOn_nil]
    exact congrArg (· ++ [[]]) (List.splitOn_intercalate '\n' (by simpa using straight) (by simpa using nonempty))
  rw [kind?, ofText, List.getElem?_toArray, parts, ← List.getElem?_map, List.map_append, List.map_map]
  rfl

theorem shows_ofText {lines : List String} (nonempty : lines ≠ []) (straight : ∀ l ∈ lines, '\n' ∉ l.toList) :
    (ofText (joinLines lines) []).Shows 0 (kinds lines) := by
  refine Shows.of_getElem? fun i kind shown => ?_
  rw [Nat.zero_add, kind?_ofText nonempty straight, List.getElem?_append_left (List.getElem?_eq_some_iff.1 shown).1]
  exact shown

/-! ## The comment above a line -/

/-- Nothing right above a line is left to claim, and what is claimed is above it. -/
structure Clear (s : Source) (claimed : Claimed) (n : Nat) : Prop where
  above : ∀ l ∈ claimed, l < n
  nothing : s.commentLines claimed n = []

/-- A line of no comment. -/
theorem commentText?_of_content (content : ∀ kind ∈ s.kind? n, kind.IsContent) :
    (s.lines[n]?).bind commentText? = none := by
  rw [kind?] at content
  cases at_n : s.lines[n]? with
  | none => rfl
  | some line =>
    rw [at_n] at content
    have content := content _ rfl
    rw [LineKind.ofLine] at content
    rw [Option.bind_some]
    cases comment : commentText? line with
    | none => rfl
    | some body => rw [comment] at content; exact absurd rfl (content body)

theorem commentText?_of_comment {body : List Char} (h : s.kind? n = some (.comment body)) :
    (s.lines[n]?).bind commentText? = some body := by
  obtain ⟨line, at_n, comment⟩ := Option.map_eq_some_iff.1 h
  rw [at_n, Option.bind_some]
  rw [LineKind.ofLine] at comment
  cases text : commentText? line with
  | none => rw [text] at comment; dsimp only at comment; split at comment <;> cases comment
  | some _ => rw [text] at comment; cases comment; rfl

/-- Right below a line with content there is no comment. -/
theorem Clear.of_content (above : ∀ l ∈ claimed, l < n + 1) (content : ∀ kind ∈ s.kind? n, kind.IsContent) :
    Clear s claimed (n + 1) := by
  refine ⟨above, ?_⟩
  rw [commentLines, commentText?_of_content content]
  split <;> rfl

theorem Clear.commentAbove (h : Clear s claimed n) : s.commentAbove n claimed = (none, claimed) := by
  rw [Source.commentAbove, h.nothing]

/-- Comment lines above a line are found, up to where nothing is left. -/
theorem Clear.commentLines_append (plain : s.blocks = []) (h : Clear s claimed n) {bodies : List (List Char)}
    (shows : s.Shows n (bodies.map .comment)) :
    s.commentLines claimed (n + bodies.length) = (bodies.zipIdx n).map Prod.swap := by
  -- The search goes up from the line, and so the induction takes the last of the comment lines first.
  induction bodies using List.reverseRecOn with
  | nil => exact h.nothing
  | append_singleton bodies body ih =>
    rw [List.map_append, List.map_singleton] at shows
    have last := shows.last
    rw [List.length_map] at last
    have free : claimed.contains (n + bodies.length) = false := by
      simpa using fun inside => absurd (h.above _ inside) (by omega)
    rw [List.length_append, List.length_singleton, ← Nat.add_assoc, commentLines, isBlockContent, plain, free,
      commentText?_of_comment last, ih (shows_append.1 shows).1, List.zipIdx_append]
    simp

/-- The lines of a node's comment, claimed with those that are. -/
def claim (n : Nat) (comment : Option String) (claimed : Claimed) : Claimed :=
  List.range' n (Yaml.commentLines comment).length ++ claimed

/-- **A comment right above a line.** It is found and claimed whole. -/
theorem Clear.commentAbove_shown (plain : s.blocks = []) (h : Clear s claimed n) {comment : Option String}
    (note : ∀ text ∈ comment, Text.IsNote text) (shows : s.Shows n (kinds (Yaml.commentLines comment))) :
    s.commentAbove (n + (Yaml.commentLines comment).length) claimed = (comment, claim n comment claimed) ∧
      Clear s (claim n comment claimed) (n + (Yaml.commentLines comment).length) := by
  cases comment with
  | none => exact ⟨h.commentAbove, h⟩
  | some text =>
    have count := length_commentLines note
    rw [kinds_commentLines note] at shows
    have text_eq : "\n".intercalate ((bodies (some text)).map String.ofList) = text := by
      rw [bodies, Option.elim_some, ← String.toList_inj, String.toList_intercalate, Text.splitAt_eq_splitOn,
        List.map_map]
      simp [Function.comp_def]
    have found := h.commentLines_append plain shows
    rw [claim, count]
    have some : bodies (some text) ≠ [] := Text.splitAt_ne_nil '\n' text.toList
    generalize bodies (Option.some text) = parts at text_eq found some ⊢
    obtain ⟨last, length⟩ : ∃ last, parts.length = last + 1 :=
      Nat.exists_eq_add_one.2 (List.length_pos_iff.2 some)
    refine ⟨?_, fun l hl => ?_, ?_⟩
    · have bodies : ((parts.zipIdx n).map Prod.swap).map (fun p => String.ofList p.2) = parts.map String.ofList := by
        rw [List.map_map, ← List.zipIdx_map_fst n parts, List.map_map, List.zipIdx_map_fst]
        rfl
      have lines : ((parts.zipIdx n).map Prod.swap).map (·.1) = List.range' n parts.length := by
        rw [List.map_map, ← List.zipIdx_map_snd n parts]
        rfl
      rw [Source.commentAbove, found]
      split
      · rename_i none
        simp [some] at none
      · rw [bodies, lines, text_eq]
    · rcases List.mem_append.1 hl with hl | hl
      · exact (List.mem_range'_1.1 hl).2
      · exact Nat.lt_of_lt_of_le (h.above l hl) (Nat.le_add_right _ _)
    -- Right above is the last line of the comment, which is claimed now.
    · have taken : (List.range' n parts.length ++ claimed).contains (n + last) := by
        rw [List.contains_iff_mem, List.mem_append, List.mem_range'_1]
        omega
      rw [length, ← Nat.add_assoc, commentLines, ← length, taken, Bool.true_or, if_pos rfl]

/-! ## The comment of an item -/

theorem itemComment_of_dash (dash : s.kind? n = some .dash) : s.itemComment n claimed = s.commentAbove n claimed := by
  rw [itemComment, if_pos (firstInk?_eq_dash_iff.2 dash)]

theorem dashAbove?_shown (dash : s.kind? n = some .dash) {bodies : List (List Char)}
    (shows : s.Shows (n + 1) (bodies.map .comment)) : s.dashAbove? (n + 1 + bodies.length) = some n := by
  induction bodies using List.reverseRecOn with
  | nil =>
    rw [List.length_nil, Nat.add_zero, dashAbove?, firstInk?_eq_dash_iff.2 dash]
    rfl
  | append_singleton bodies body ih =>
    rw [List.map_append, List.map_singleton] at shows
    have last := shows.last
    rw [List.length_map] at last
    rw [List.length_append, List.length_singleton, ← Nat.add_assoc, dashAbove?, firstInk?_of_comment last]
    exact ih (shows_append.1 shows).1

/-- An item whose block begins below its dash, comments apart, has the comment above the dash, unless the
block begins with a dash. -/
theorem itemComment_below (dash : s.kind? n = some .dash) {comment : Option String}
    (note : ∀ text ∈ comment, Text.IsNote text) (shows : s.Shows (n + 1) (kinds (Yaml.commentLines comment)))
    (other : s.kind? (n + 1 + (Yaml.commentLines comment).length) ≠ some .dash) :
    s.itemComment (n + 1 + (Yaml.commentLines comment).length) claimed = s.commentAbove n claimed := by
  rw [kinds_commentLines note] at shows
  rw [itemComment, if_neg fun starts => other (firstInk?_eq_dash_iff.1 starts), length_commentLines note,
    dashAbove?_shown dash shows]

theorem itemComment_bare (dash : s.kind? n = some .dash) (other : s.kind? (n + 1) ≠ some .dash) :
    s.itemComment (n + 1) claimed = s.commentAbove n claimed :=
  have bare : ∀ text ∈ (none : Option String), Text.IsNote text := nofun
  itemComment_below dash bare trivial other

end Source

end Yaml

end LayeredConfig
