import LayeredConfig.Proofs.Yaml.LoadedData

/-!
# Counting the lines of comments

No line is in two comments, so a text has as many comment lines as all the comments that are loaded from it have
lines, or more (`loadedLines_le`). What is written has no comment lines but those of its comments
(`countP_kinds_linesOf`), and of these an empty last line is not written. So a comment that ends in an empty line
does not come back (`unclosed_of_reload`).
-/

namespace LayeredConfig.Yaml

open Document

/-! ## Lines of a comment -/

/-- Whether the last line of a comment is empty. Such a line is not written. -/
def EndsEmpty (text : String) : Prop := (Text.splitAt '\n' text.toList).getLast? = some []

instance (text : String) : Decidable (EndsEmpty text) := inferInstanceAs (Decidable (_ = _))

/-- A comment is written in its lines, but for an empty last one. -/
theorem length_commentLines_some (text : String) : (commentLines (some text)).length ≤ (bodies (some text)).length ∧
    (EndsEmpty text → (commentLines (some text)).length < (bodies (some text)).length) := by
  rw [commentLines, Text.lines, List.length_map, List.length_map, bodies, Option.elim_some, Text.linesOf, EndsEmpty]
  generalize Text.splitAt '\n' text.toList = parts
  cases parts using List.reverseRecOn with
  | nil => simp
  | append_singleton before last => cases last <;> simp

theorem length_commentLines_le (comment : Option String) : (commentLines comment).length ≤ (bodies comment).length := by
  cases comment with
  | none => exact Nat.le_refl 0
  | some text => exact (length_commentLines_some text).1

/-- The number of lines that comments are written in. -/
def writtenLines (comments : List (Option String)) : Nat :=
  (comments.map fun comment => (commentLines comment).length).sum

/-- The number of lines that comments have. -/
def loadedLines (comments : List (Option String)) : Nat :=
  (comments.map fun comment => (bodies comment).length).sum

/-- Comments that have no more lines than are written do not end in an empty line. -/
theorem not_endsEmpty_of_le {comments : List (Option String)} (few : loadedLines comments ≤ writtenLines comments) :
    ∀ comment ∈ comments, ∀ text ∈ comment, ¬EndsEmpty text := by
  intro comment inside text same empty
  refine Nat.not_lt.2 few (List.sum_lt_sum _ _ (fun comment _ => length_commentLines_le comment) ⟨comment, inside, ?_⟩)
  rw [Option.mem_def.1 same]
  exact (length_commentLines_some text).2 empty

/-! ## Lines of a text -/

namespace LineKind

/-- Whether a line is a comment. -/
def isComment : LineKind → Bool
  | .comment _ => true
  | _ => false

theorem isComment_leadKind (dashes : Bool) (key : String) : (leadKind dashes key).isComment = false := by
  unfold leadKind
  split <;> rfl

end LineKind

/-- What a merge key is written in is no comment. -/
theorem countP_kinds_mergeLines (form : Form) : (kinds form.mergeLines).countP LineKind.isComment = 0 := by
  rcases mergeLines_cases form with none | ⟨l, single, -, other⟩
  · rw [none]
    rfl
  · rw [single, kinds, List.map_singleton, other]
    rfl

/-- What a node shows below its first line has no comment lines but those of what is below it. -/
theorem countP_behind_le (dashes : Bool) (d : NodeData) (below : Forest NodeData) :
    (behind dashes d below).countP LineKind.isComment ≤
      (kinds (linesOf (d.type = .array) below)).countP LineKind.isComment := by
  rw [behind]
  refine ((List.drop_sublist _ _).countP_le (p := LineKind.isComment)).trans ?_
  have merges := countP_kinds_mergeLines (formOf d below.isEmpty)
  cases form : formOf d below.isEmpty with
  | mapping merged =>
    rw [form] at merges
    rw [Form.body, kinds_append, List.countP_append]
    exact (Nat.add_le_add_right merges.le _).trans (Nat.zero_add _).le
  | sequence => exact Nat.le_refl _
  | _ => exact Nat.zero_le _

/-- **What is written** has no comment lines but those of its comments. -/
theorem countP_kinds_linesOf {dashes : Bool} {f : Forest NodeData} (scannable : AllScannable dashes f)
    (inked : f.Everywhere fun r => keyInk r.label.key ≠ '#') :
    (kinds (linesOf dashes f)).countP LineKind.isComment ≤ writtenLines (f.preorder.map (·.comment)) := by
  induction f generalizing dashes with
  | nil => exact Nat.le_refl 0
  | cons d below ss ihc ihs =>
    obtain ⟨here, inner, others⟩ := scannable
    obtain ⟨key, inkedBelow, inkedBehind⟩ := Forest.everywhere_cons.1 inked
    have own : (kinds (commentLines d.comment)).countP LineKind.isComment ≤ (commentLines d.comment).length := by
      simpa [kinds] using (kinds (commentLines d.comment)).countP_le_length (p := LineKind.isComment)
    have block := (countP_behind_le dashes d below).trans (ihc inner inkedBelow)
    have rest := ihs others inkedBehind
    rw [linesOf, kinds_append, kinds_append, kinds_ownLines here inner key, List.countP_append, List.countP_append,
      List.countP_cons, LineKind.isComment_leadKind]
    simp only [writtenLines, Forest.preorder, List.map_cons, List.map_append, List.sum_cons, List.sum_append,
      Bool.false_eq_true, if_false] at block rest ⊢
    omega

/-! ## Loaded comments -/

/-- The comments of both trees, node by node. -/
def commentList (c : Configuration) : List (Option String) :=
  ((commentsOf c.default).preorder ++ (commentsOf c.environments).preorder).map (·.2)

variable {c : Configuration} {text : String} {blocks : List BlockRange}

/-- Comments have as many lines as they were taken from. -/
theorem loadedLines_commentsOf {t : Tree} {name : String} {lines : Forest KeyLines}
    (taken : CommentsFrom (.ofText text blocks) t name lines) :
    loadedLines ((commentsOf t).preorder.map (·.2)) = (allLines lines).length := by
  have each (n : KeyLines) : (bodies ((Source.ofText text blocks).told n).2).length = n.2.length := by
    cases comment : ((Source.ofText text blocks).told n).2 with
    | none =>
      have none : n.2 = [] := by
        cases lines : n.2 with
        | nil => rfl
        | cons => rw [Source.told, lines] at comment; cases comment
      rw [none]
      rfl
    | some text => rw [bodies, Option.elim_some, splitAt_comment comment, List.length_map]
  rw [taken.told, Rose.preorder, Forest.preorder_map, allLines, List.length_flatMap, loadedLines, List.map_cons,
    List.map_map, List.map_cons, List.map_map, List.sum_cons]
  exact (Nat.zero_add _).trans (congrArg List.sum (List.map_congr_left fun n _ => each n))

/-- The lines that comments were taken from are comment lines of the text. -/
theorem kind?_of_mem_allLines {s : Source} {lines : Forest KeyLines}
    (remarks : lines.Everywhere fun r => s.AreRemarks r.label.2) :
    ∀ n ∈ allLines lines, ∃ body, s.kind? n = some (.comment body) := by
  intro n hn
  obtain ⟨node, inside, hn⟩ := List.mem_flatMap.1 hn
  exact ((Forest.everywhere_label (p := fun n : KeyLines => s.AreRemarks n.2)).1 remarks node inside).comment n hn

/-- **Loaded comments** have no more lines than the text has comment lines. -/
theorem loadedLines_le {lines : List String} (nonempty : lines ≠ []) (straight : ∀ l ∈ lines, '\n' ∉ l.toList)
    (loaded : load (joinLines lines) = .ok c) :
    loadedLines (commentList c) ≤ (kinds lines).countP LineKind.isComment := by
  obtain ⟨d, e, default, environments, claims⟩ := notedTrees_of_load loaded
  rw [blocks_sourceOf loaded] at default environments
  have count : loadedLines (commentList c) = (allLines d ++ allLines e).length := by
    rw [List.length_append, ← loadedLines_commentsOf default, ← loadedLines_commentsOf environments, commentList,
      List.map_append, loadedLines, List.map_append, List.sum_append]
    rfl
  rw [count, ← List.length_findIdxs (s := 0)]
  refine (claims.once.subperm fun n hn => ?_).length_le
  have comment : ∃ body, (Source.ofText (joinLines lines) (blockRanges (eventLines (joinLines lines)))).kind? n =
      some (.comment body) :=
    (List.mem_append.1 hn).elim (kind?_of_mem_allLines default.remarks n) (kind?_of_mem_allLines environments.remarks n)
  obtain ⟨body, comment⟩ := comment
  rw [Source.kind?_ofText nonempty straight] at comment
  refine List.mem_findIdxs_iff_exists_getElem_pos.2 ?_
  rcases Nat.lt_or_ge n (kinds lines).length with above | below
  · rw [List.getElem?_append_left above, List.getElem?_eq_getElem above, Option.some_inj] at comment
    exact ⟨above, by rw [comment]; rfl⟩
  · rw [List.getElem?_append_right below] at comment
    have last := List.mem_singleton.1 (List.mem_of_getElem? comment)
    cases last

end LayeredConfig.Yaml
