import LayeredConfig.Proofs.Yaml.Layout

/-!
# The values of a written document as tokens

What stands behind a key or a dash, up to the content below it. `under j tail ls` is the text from the
end of a line on when the lines `ls` stand below it in column `j`, and `tail` after them.
-/

namespace LayeredConfig.Yaml

open Quoting (Inscription)

variable {cs R X tail : List Char} {line column : Nat} {allowed bare : Bool} {blocks : List Nat}

/-! ## Lines below -/

/-- The text behind a line: lines in a column, and what follows them. -/
def under (j : Nat) (tail : List Char) : List String → List Char
  | [] => tail
  | l :: ls => '\n' :: (List.replicate j ' ' ++ (l.toList ++ under j tail ls))

theorem under_append (j : Nat) (tail : List Char) (ls ls' : List String) :
    under j tail (ls ++ ls') = under j (under j tail ls') ls := by
  induction ls with
  | nil => rfl
  | cons l ls ih => rw [List.cons_append, under, under, ih]

theorem under_indented (j : Nat) (tail : List Char) (ls : List String) :
    under j tail (ls.map (indentation ++ ·)) = under (j + 2) tail ls := by
  induction ls with
  | nil => rfl
  | cons l ls ih =>
    rw [List.map_cons, under, under, ih, String.toList_append, List.replicate_add, List.append_assoc,
      List.append_assoc]
    rfl

/-- The text behind a line leads over `k` comment lines to the content `R` in column `j`. -/
def Below (tail : List Char) (j k : Nat) (R : List Char) : Prop :=
  ∃ T, tail = '\n' :: (List.replicate j ' ' ++ T) ∧ Lead j T k R

/-- A line that is a comment. -/
def IsComment (l : String) : Prop :=
  ∃ body, l.toList = '#' :: body ∧ ∀ c ∈ body, isBreakOrEnd c = false

/-- Comment lines and the line below them. -/
theorem below_comments (j : Nat) (tail : List Char) {comments : List String}
    (comment : ∀ l ∈ comments, IsComment l) {l : String} {ls : List String} {x : Char} {l' : List Char}
    (head : l.toList = x :: l') (ink : isGap x = false) (sign : x ≠ '#') :
    Below (under j tail (comments ++ l :: ls)) j comments.length (l.toList ++ under j tail ls) := by
  induction comments with
  | nil => exact ⟨_, rfl, by rw [head]; exact .content ink sign⟩
  | cons c comments ih =>
    obtain ⟨T, rest, lead⟩ := ih fun l hl => comment l (List.mem_cons_of_mem _ hl)
    obtain ⟨body, same, line⟩ := comment c List.mem_cons_self
    refine ⟨c.toList ++ under j tail (comments ++ l :: ls), by rw [List.cons_append, under], ?_⟩
    rw [same, rest]
    exact .comment line lead

theorem Below.length_le {j k : Nat} (h : Below tail j k R) : R.length + 1 ≤ tail.length := by
  obtain ⟨T, rfl, lead⟩ := h
  have := lead.length_le
  simp only [List.length_cons, List.length_append]
  omega

/-! ## Steps within a line -/

/-- Behind a token and some blanks the next one follows. -/
theorem Fetches.stay {s : Spot} {out : List (Nat × TokenKind)} (k : Nat) {x : Char} (ink : isGap x = false)
    (sign : x ≠ '#') {flow : Bool} (inside : flow = true ∨ Spot.top blocks < (column + k : Nat))
    (fetches : Fetches cs s out ⟨List.replicate k ' ' ++ x :: X, line, column, allowed, blocks, bare, flow⟩)
    (shorter : X.length + 1 < s.rest.length) :
    Emits cs s out ⟨x :: X, line, column + k, allowed, blocks, bare, flow⟩ := by
  have unrolls : Unrolls ⟨x :: X, line, column + k, allowed, blocks, bare, flow⟩ []
      ⟨x :: X, line, column + k, allowed, blocks, bare, flow⟩ := by
    cases flow with
    | true => exact unrolls_flow rfl
    | false =>
      intro n
      exact ⟨[], by rw [List.append_nil]; exact unroll_inside rfl (inside.resolve_left (by decide)) n, fun _ => rfl⟩
  simpa using fetches.emits (skips_spaces cs k X ink sign line column allowed blocks bare flow) unrolls
    ⟨rfl, rfl⟩ shorter

/-- Behind a token the line ends. -/
theorem Fetches.ends {s : Spot} {out : List (Nat × TokenKind)} {j k : Nat} (below : Below tail j k R)
    (outer : (j : Int) ≤ Spot.top blocks)
    (fetches : Fetches cs s out ⟨tail, line, column, allowed, blocks, bare, false⟩)
    (shorter : tail.length ≤ s.rest.length) :
    Emits cs s (out ++ closings blocks j) (Spot.below R (line + 1 + k) j blocks) := by
  have length := below.length_le
  obtain ⟨T, rfl, lead⟩ := below
  exact fetches.emits (lead.skips_line line column allowed blocks bare) (unrolls_below outer) ⟨rfl, rfl⟩
    (by simp only [Spot.below]; omega)

/-- Behind a token the line ends, and the content below is further in. -/
theorem Fetches.descends {s : Spot} {out : List (Nat × TokenKind)} {j k : Nat} (below : Below tail j k R)
    (inner : Spot.top blocks < j)
    (fetches : Fetches cs s out ⟨tail, line, column, allowed, blocks, bare, false⟩)
    (shorter : tail.length ≤ s.rest.length) :
    Emits cs s out ⟨R, line + 1 + k, j, true, blocks, bare, false⟩ := by
  have length := below.length_le
  obtain ⟨T, rfl, lead⟩ := below
  have unrolls : Unrolls ⟨R, line + 1 + k, j, true, blocks, bare, false⟩ []
      ⟨R, line + 1 + k, j, true, blocks, bare, false⟩ := fun n =>
    ⟨[], by rw [List.append_nil]; exact unroll_inside rfl inner n, fun _ => rfl⟩
  simpa using fetches.emits (lead.skips_line line column allowed blocks bare) unrolls ⟨rfl, rfl⟩
    (show R.length < s.rest.length by omega)

/-! ## Anchors and aliases -/

/-- A name that an anchor may have. -/
def IsName (a : String) : Prop := a.toList ≠ [] ∧ ∀ c ∈ a.toList, isAnchorChar c

instance (a : String) : Decidable (IsName a) :=
  decidable_of_iff (a.toList ≠ [] ∧ a.toList.all isAnchorChar) (and_congr_right fun _ => List.all_eq_true)

/-- **What stands behind an anchor.** -/
theorem emits_anchored {anchor : Option String} (name : ∀ a ∈ anchor, IsName a) {text : String} {x : Char}
    {w : List Char} (starts : text.toList = x :: w) (ink : isGap x = false) (sign : x ≠ '#')
    {out : List (Nat × TokenKind)} {s' : Spot} (inner : Spot.top blocks + 1 < column)
    (emits : ∀ column allowed, Spot.top blocks + 1 < (column : Nat) →
      Emits cs ⟨text.toList ++ tail, line, column, allowed, blocks, bare, false⟩ out s') :
    Emits cs ⟨(Form.anchored anchor text).toList ++ tail, line, column, allowed, blocks, bare, false⟩
      (anchorTokens anchor ++ out) s' := by
  cases anchor with
  | none => exact emits column allowed inner
  | some a =>
    obtain ⟨nonempty, chars⟩ := name a rfl
    have full : text.isEmpty = false := by
      rw [← Bool.not_eq_true, String.isEmpty_iff, ← String.toList_eq_nil_iff, starts]
      simp
    have same : (Form.anchored (some a) text).toList ++ tail = '&' :: (a.toList ++ ' ' :: (x :: (w ++ tail))) := by
      simp [Form.anchored, full, starts]
    have anchored : Emits cs
        ⟨'&' :: (a.toList ++ ' ' :: (x :: (w ++ tail))), line, column, allowed, blocks, bare, false⟩
        [(0, .anchor (String.ofList a.toList))]
        ⟨x :: (w ++ tail), line, column + 1 + a.toList.length + 1, false, blocks, bare, false⟩ :=
      Fetches.stay 1 ink sign (.inr (by omega)) (fetches_anchor nonempty chars rfl inner)
        (by simp only [List.length_cons, List.length_append]; omega)
    have value := emits (column + 1 + a.toList.length + 1) false (by omega)
    rw [starts] at value
    rw [same]
    simpa [anchorTokens] using anchored.trans value

/-- An alias at the end of a line. -/
theorem emits_alias {a : String} (name : IsName a) {j k : Nat} (below : Below tail j k R)
    (outer : (j : Int) ≤ Spot.top blocks) (inner : Spot.top blocks + 1 < column) :
    Emits cs ⟨("*" ++ a).toList ++ tail, line, column, allowed, blocks, bare, false⟩
      ((line, .alias a) :: closings blocks j) (Spot.below R (line + 1 + k) j blocks) := by
  obtain ⟨T, rfl, lead⟩ := id below
  have same : ("*" ++ a).toList ++ '\n' :: (List.replicate j ' ' ++ T) =
      '*' :: (a.toList ++ '\n' :: (List.replicate j ' ' ++ T)) := by simp
  rw [same]
  have fetched : Fetches cs ⟨'*' :: (a.toList ++ '\n' :: (List.replicate j ' ' ++ T)), line, column, allowed,
      blocks, bare, false⟩ [(line, .alias (String.ofList a.toList))] ⟨'\n' :: (List.replicate j ' ' ++ T), line,
        column + 1 + a.toList.length, false, blocks, bare, false⟩ := fetches_alias name.1 name.2 rfl inner
  simpa using fetched.ends below outer (by simp; omega)

/-! ## Flow collections -/

/-- An empty mapping at the end of a line. -/
theorem emits_emptyMapping (nonempty : blocks ≠ []) {j k : Nat} (below : Below tail j k R)
    (outer : (j : Int) ≤ Spot.top blocks) (inner : Spot.top blocks + 1 < column) :
    Emits cs ⟨'{' :: '}' :: tail, line, column, allowed, blocks, bare, false⟩
      ([(line, .flowMappingStart), (0, .flowMappingEnd)] ++ closings blocks j)
      (Spot.below R (line + 1 + k) j blocks) := by
  obtain ⟨T, rfl, lead⟩ := id below
  have start : Emits cs ⟨'{' :: '}' :: '\n' :: (List.replicate j ' ' ++ T), line, column, allowed, blocks, bare, false⟩
      [(line, .flowMappingStart)]
      ⟨'}' :: '\n' :: (List.replicate j ' ' ++ T), line, column + 1, true, blocks, true, true⟩ :=
    Fetches.stay 0 rfl (by decide) (.inl rfl) (fetches_flowMapping nonempty rfl (by decide) inner) (by simp)
  exact start.trans (Fetches.ends below outer (fetches_flowMappingEnd (by omega)) (by simp))

/-- An empty sequence at the end of a line. -/
theorem emits_emptySequence (nonempty : blocks ≠ []) {j k : Nat} (below : Below tail j k R)
    (outer : (j : Int) ≤ Spot.top blocks) (inner : Spot.top blocks + 1 < column) :
    Emits cs ⟨'[' :: ']' :: tail, line, column, allowed, blocks, bare, false⟩
      ([(line, .flowSequenceStart), (0, .flowSequenceEnd)] ++ closings blocks j)
      (Spot.below R (line + 1 + k) j blocks) := by
  obtain ⟨T, rfl, lead⟩ := id below
  have start : Emits cs ⟨'[' :: ']' :: '\n' :: (List.replicate j ' ' ++ T), line, column, allowed, blocks, bare, false⟩
      [(line, .flowSequenceStart)]
      ⟨']' :: '\n' :: (List.replicate j ' ' ++ T), line, column + 1, true, blocks, true, true⟩ :=
    Fetches.stay 0 rfl (by decide) (.inl rfl) (fetches_flowSequence nonempty rfl (by decide) inner) (by simp)
  exact start.trans (Fetches.ends below outer (fetches_flowSequenceEnd (by omega)) (by simp))

/-- The text of aliases with commas between them. -/
def aliasText : List String → List Char
  | [] => []
  | [a] => '*' :: a.toList
  | a :: as => '*' :: a.toList ++ ',' :: ' ' :: aliasText as

theorem aliasText_cons_cons (a b : String) (as : List String) :
    aliasText (a :: b :: as) = '*' :: a.toList ++ ',' :: ' ' :: aliasText (b :: as) := rfl

/-- The aliases of a flow sequence, up to its end. -/
theorem emits_aliases (column : Nat) (allowed : Bool) {names : List String} (name : ∀ a ∈ names, IsName a)
    (nonempty : names ≠ [])
    (inner : Spot.top blocks + 1 < column) :
    ∃ column', Spot.top blocks + 1 < (column' : Nat) ∧
      Emits cs ⟨aliasText names ++ ']' :: X, line, column, allowed, blocks, bare, true⟩
        ((names.map fun a => (line, .alias a)).intersperse (0, .flowEntry))
        ⟨']' :: X, line, column', false, blocks, bare, true⟩ := by
  induction names generalizing column allowed with
  | nil => exact absurd rfl nonempty
  | cons a names ih =>
    obtain ⟨chars, valid⟩ := name a List.mem_cons_self
    cases names with
    | nil =>
      refine ⟨column + 1 + a.toList.length, by omega, ?_⟩
      have last : Emits cs ⟨'*' :: (a.toList ++ ']' :: X), line, column, allowed, blocks, bare, true⟩
          [(line, .alias (String.ofList a.toList))]
          ⟨']' :: X, line, column + 1 + a.toList.length, false, blocks, bare, true⟩ :=
        Fetches.stay 0 rfl (by decide) (.inl rfl) (fetches_alias chars valid rfl inner)
          (by simp only [List.length_cons, List.length_append]; omega)
      simpa [aliasText] using last
    | cons b names =>
      obtain ⟨column', inner', rest⟩ := ih (column + 1 + a.toList.length + 2) true
        (fun c hc => name c (List.mem_cons_of_mem _ hc)) (by simp) (by omega)
      obtain ⟨T, starts⟩ : ∃ T, aliasText (b :: names) ++ ']' :: X = '*' :: T := by
        cases names <;> exact ⟨_, rfl⟩
      refine ⟨column', inner', ?_⟩
      have first : Emits cs ⟨'*' :: (a.toList ++ ',' :: ' ' :: '*' :: T), line, column, allowed, blocks, bare, true⟩
          [(line, .alias (String.ofList a.toList))]
          ⟨',' :: ' ' :: '*' :: T, line, column + 1 + a.toList.length, false, blocks, bare, true⟩ :=
        Fetches.stay 0 rfl (by decide) (.inl rfl) (fetches_alias chars valid rfl inner)
          (by simp only [List.length_cons, List.length_append]; omega)
      have comma : Emits cs ⟨',' :: ' ' :: '*' :: T, line, column + 1 + a.toList.length, false, blocks, bare, true⟩
          [(0, .flowEntry)] ⟨'*' :: T, line, column + 1 + a.toList.length + 2, true, blocks, bare, true⟩ :=
        Fetches.stay 0 rfl (by decide) (.inl rfl) (fetches_flowEntry rfl (by decide) (by omega)) (by simp)
      rw [starts] at rest
      have text : aliasText (a :: b :: names) ++ ']' :: X = '*' :: (a.toList ++ ',' :: ' ' :: '*' :: T) := by
        rw [← starts, aliasText_cons_cons]
        simp
      rw [text]
      simpa using first.trans (comma.trans rest)

theorem toList_aliases (names : List String) :
    (", ".intercalate (names.map ("*" ++ ·))).toList = aliasText names := by
  induction names with
  | nil => rfl
  | cons a names ih =>
    cases names with
    | nil => simp [aliasText]
    | cons b names =>
      rw [List.map_cons, List.map_cons, String.intercalate_cons_cons, ← List.map_cons, String.toList_append,
        ih, aliasText_cons_cons]
      simp

/-! ## Keys -/

section Keys

variable {text : String} {W : List Char} {style : Style} {after : List Nat}
  {opening : List (Nat × TokenKind)}

theorem Opens.top_eq (opens : Opens column opening blocks bare after opening') : Spot.top after = column := by
  cases opens <;> rfl

variable (cs) in
/-- A key with its value on the same line. -/
theorem emits_key_value (ins : Inscription text.toList style W) (edge : Unmarked column W)
    (short : W.length ≤ 1024) (opens : Opens column [(line, .blockMappingStart)] blocks bare after opening)
    {x : Char} (ink : isGap x = false) (sign : x ≠ '#') :
    Emits cs ⟨W ++ ':' :: ' ' :: x :: X, line, column, true, blocks, bare, false⟩
      (opening ++ keyTokens line style text)
      ⟨x :: X, line, column + W.length + 2, false, after, true, false⟩ := by
  have unrolls : Unrolls ⟨x :: X, line, column + W.length + 2, false, after, true, false⟩ []
      ⟨x :: X, line, column + W.length + 2, false, after, true, false⟩ := fun n =>
    ⟨[], by rw [List.append_nil]; exact unroll_inside rfl (by simp only [opens.top_eq]; omega) n, fun _ => rfl⟩
  have key := emits_key cs (X := x :: X) ins edge short opens (g := ' ') rfl (by decide)
    (skips_spaces cs 1 X ink sign line (column + W.length + 1) false after true false) unrolls ⟨rfl, rfl⟩ (by simp)
  simpa [keyTokens] using key

variable (cs) in
/-- A key with its block below. -/
theorem emits_key_block (ins : Inscription text.toList style W) (edge : Unmarked column W)
    (short : W.length ≤ 1024) (opens : Opens column [(line, .blockMappingStart)] blocks bare after opening)
    {j k : Nat} (below : Below tail j k R) (inner : column < j) :
    Emits cs ⟨W ++ ':' :: tail, line, column, true, blocks, bare, false⟩
      (opening ++ keyTokens line style text) ⟨R, line + 1 + k, j, true, after, true, false⟩ := by
  have length := below.length_le
  obtain ⟨T, rfl, lead⟩ := below
  have unrolls : Unrolls ⟨R, line + 1 + k, j, true, after, true, false⟩ []
      ⟨R, line + 1 + k, j, true, after, true, false⟩ := fun n =>
    ⟨[], by rw [List.append_nil]; exact unroll_inside rfl (by simp only [opens.top_eq]; omega) n, fun _ => rfl⟩
  have key := emits_key cs ins edge short opens (g := '\n') rfl (by decide)
    (lead.skips_line line (column + W.length + 1) false after true) unrolls ⟨rfl, rfl⟩
    (by simp only [List.length_cons] at length ⊢; omega)
  simpa [keyTokens] using key

variable (cs line) in
/-- The line that merges others. -/
theorem emits_merge {names : List String} (name : ∀ a ∈ names, IsName a) {l : String}
    (merged : mergeLine names = [l]) (margin : column ≠ 0)
    (opens : Opens column [(line, .blockMappingStart)] blocks bare after opening) {j k : Nat}
    (below : Below tail j k R) (outer : j ≤ column) :
    Emits cs ⟨l.toList ++ tail, line, column, true, blocks, bare, false⟩
      (opening ++ mergeTokens line names ++ closings after j) (Spot.below R (line + 1 + k) j after) := by
  have plain : Inscription "<<".toList .plain "<<".toList :=
    .plain (Quoting.plainForm_of_allowsPlain (by decide +kernel) (by decide))
  have edge : Unmarked column "<<".toList := fun h => absurd h margin
  have nonempty : after ≠ [] := by cases opens <;> simp
  have top := opens.top_eq
  rcases names with - | ⟨a, - | ⟨b, names⟩⟩
  · cases merged
  · obtain rfl : "<<: *" ++ a = l := by simpa [mergeLine] using merged
    have key := emits_key_value cs (X := a.toList ++ tail) plain edge (by decide) opens (x := '*') rfl
      (by decide)
    have value : Emits cs ⟨("*" ++ a).toList ++ tail, line, column + 2 + 2, false, after, true, false⟩ _ _ :=
      emits_alias (name a (by simp)) below (by rw [top]; omega) (by rw [top]; omega)
    have all := key.trans (by simpa using value)
    simpa [mergeTokens, keyTokens] using all
  · obtain rfl : "<<: [" ++ ", ".intercalate ((a :: b :: names).map ("*" ++ ·)) ++ "]" = l := by
      simpa [mergeLine] using merged
    have text : ("<<: [" ++ ", ".intercalate ((a :: b :: names).map ("*" ++ ·)) ++ "]").toList ++ tail =
        "<<".toList ++ ':' :: ' ' :: '[' :: (aliasText (a :: b :: names) ++ ']' :: tail) := by
      rw [String.toList_append, String.toList_append, toList_aliases]
      simp
    obtain ⟨T, starts⟩ : ∃ T, aliasText (a :: b :: names) ++ ']' :: tail = '*' :: T := ⟨_, rfl⟩
    obtain ⟨column', inner, listed⟩ : ∃ column', Spot.top after + 1 < (column' : Nat) ∧
        Emits cs ⟨aliasText (a :: b :: names) ++ ']' :: tail, line, column + 2 + 2 + 1, true, after, true, true⟩
          (((a :: b :: names).map fun a => (line, .alias a)).intersperse (0, .flowEntry))
          ⟨']' :: tail, line, column', false, after, true, true⟩ :=
      emits_aliases _ true name (by simp) (by rw [top]; omega)
    have key := emits_key_value cs (X := aliasText (a :: b :: names) ++ ']' :: tail) plain edge
      (by decide) opens (x := '[') rfl (by decide)
    have start : Emits cs ⟨'[' :: '*' :: T, line, column + 2 + 2, false, after, true, false⟩
        [(line, .flowSequenceStart)] ⟨'*' :: T, line, column + 2 + 2 + 1, true, after, true, true⟩ :=
      Fetches.stay 0 rfl (by decide) (.inl rfl)
        (fetches_flowSequence nonempty rfl (by decide) (by rw [top]; omega)) (by simp)
    have stop : Emits cs ⟨']' :: tail, line, column', false, after, true, true⟩
        ([(0, .flowSequenceEnd)] ++ closings after j) (Spot.below R (line + 1 + k) j after) := by
      obtain ⟨T, rfl, -⟩ := id below
      exact Fetches.ends below (by rw [top]; omega) (fetches_flowSequenceEnd inner) (by simp)
    rw [starts] at key listed
    rw [text, starts]
    have all := key.trans (start.trans (listed.trans stop))
    simpa [mergeTokens, keyTokens] using all

end Keys

end LayeredConfig.Yaml
