import LayeredConfig.Proofs.Yaml.CommentLines

/-!
# The kinds of the lines of a written forest

Below its comment a node shows the kind of what stands in front of its value, a dash or a key, and then the
kinds of the lines of its block (`kinds_ownLines`). A block that begins on the line of a dash loses the kind
of its first line to the dash (`behind`). The last line of a forest is never a comment (`ends_linesOf`).
-/

namespace LayeredConfig.Yaml

/-! ## Lines -/

/-- A line that is one: without a line feed. -/
def Straight (l : String) : Prop := '\n' ∉ l.toList

instance (l : String) : Decidable (Straight l) := inferInstanceAs (Decidable ('\n' ∉ l.toList))

theorem Straight.append {l l' : String} (h : Straight l) (h' : Straight l') : Straight (l ++ l') := by
  rw [Straight, String.toList_append, List.mem_append]
  exact fun feed => feed.elim h h'

theorem IsName.straight {a : String} (h : IsName a) : Straight a := fun feed => by
  have := h.2 _ feed
  cases this

theorem IsComment.straight {l : String} (h : IsComment l) : Straight l := by
  obtain ⟨body, text, fine⟩ := h
  intro feed
  rw [text, List.mem_cons] at feed
  rcases feed with feed | feed
  · cases feed
  · cases fine _ feed

theorem straight_mergeLine {names : List String} (h : ∀ a ∈ names, IsName a) : ∀ l ∈ mergeLine names, Straight l := by
  have listed : Straight (", ".intercalate (names.map ("*" ++ ·))) := by
    induction names with
    | nil => exact (by decide : Straight "")
    | cons a names ih =>
      have first : Straight ("*" ++ a) := .append (by decide) (h a List.mem_cons_self).straight
      cases names with
      | nil => rwa [List.map_singleton, String.intercalate_singleton]
      | cons b names =>
        rw [List.map_cons, List.map_cons, String.intercalate_cons_cons, ← List.map_cons]
        exact (first.append (by decide)).append (ih fun c hc => h c (List.mem_cons_of_mem a hc))
  rcases names with - | ⟨a, - | ⟨b, names⟩⟩
  · exact List.forall_mem_nil _
  · exact List.forall_mem_singleton.2 (.append (by decide) (h a List.mem_cons_self).straight)
  · exact List.forall_mem_singleton.2 (.append (.append (by decide) listed) (by decide))

/-- A node of lines that are such. -/
def Written.Straight : Written → Prop
  | .inline text => Yaml.Straight text
  | .block header lines => Yaml.Straight header ∧ ∀ l ∈ lines, Yaml.Straight l

theorem straight_indented {lines : List String} (h : ∀ l ∈ lines, Straight l) :
    ∀ l ∈ lines.map (indentation ++ ·), Straight l :=
  List.forall_mem_map.2 fun l hl => .append (by decide) (h l hl)

theorem Written.Straight.underKey {w : Written} (h : w.Straight) {key : String} (own : Yaml.Straight key) :
    ∀ l ∈ w.underKey key, Yaml.Straight l := by
  cases w with
  | inline text => exact List.forall_mem_singleton.2 ((own.append (by decide)).append h)
  | block header lines =>
    refine List.forall_mem_cons.2 ⟨?_, straight_indented h.2⟩
    split
    · exact own.append (by decide)
    · exact (own.append (by decide)).append h.1

theorem Written.Straight.underDash {w : Written} (h : w.Straight) : ∀ l ∈ w.underDash, Yaml.Straight l := by
  have dash : Yaml.Straight "- " := by decide
  cases w with
  | inline text => exact List.forall_mem_singleton.2 (dash.append h)
  | block header lines =>
    unfold Written.underDash
    dsimp only
    split
    · exact List.forall_mem_cons.2 ⟨dash.append h.1, straight_indented h.2⟩
    · cases lines with
      | nil => exact List.forall_mem_nil _
      | cons first rest =>
        have ⟨one, others⟩ := List.forall_mem_cons.1 h.2
        dsimp only
        split
        · exact List.forall_mem_cons.2 ⟨by decide, straight_indented h.2⟩
        · exact List.forall_mem_cons.2 ⟨dash.append one, straight_indented others⟩

theorem straight_anchored {anchor : Option String} (name : ∀ a ∈ anchor, IsName a) {text : String} (h : Straight text) :
    Straight (Form.anchored anchor text) := by
  cases anchor with
  | none => exact h
  | some a =>
    have sign : Straight ("&" ++ a) := .append (by decide) (name a rfl).straight
    rw [Form.anchored, Option.elim_some]
    split
    · exact sign
    · exact (sign.append (by decide)).append h

variable {dashes : Bool} {d : NodeData} {leaf : Bool}

theorem Scannable.straight_written (h : Scannable dashes d leaf) {lines : List String}
    (below : ∀ l ∈ lines, Straight l) : ((formOf d leaf).written d.anchor lines).Straight := by
  have shape := shape_formOf h.leaf
  generalize formOf d leaf = form at shape
  cases shape with
  | aliased a type listed => exact .append (by decide) (h.aliases a listed).straight
  | scalar type => exact straight_anchored h.anchor (h.value type).line
  | emptyMapping | emptySequence => exact straight_anchored h.anchor (by decide)
  | mapping =>
    exact ⟨straight_anchored h.anchor (by decide), List.forall_mem_append.2 ⟨straight_mergeLine h.aliases, below⟩⟩
  | sequence => exact ⟨straight_anchored h.anchor (by decide), below⟩

/-- What is written for a forest are lines. -/
theorem straight_linesOf {f : Forest NodeData} (h : AllScannable dashes f) : ∀ l ∈ linesOf dashes f, Straight l := by
  induction f generalizing dashes with
  | nil => exact List.forall_mem_nil _
  | cons d below ss ihc ihs =>
    obtain ⟨here, inner, others⟩ := h
    have written := here.straight_written (ihc inner)
    refine List.forall_mem_append.2 ⟨List.forall_mem_append.2
      ⟨fun l hl => (here.comment l hl).straight, ?_⟩, ihs others⟩
    unfold ownLines
    dsimp only
    split
    · exact written.underDash
    · rename_i keyed
      exact written.underKey (here.inscription (by simpa using keyed)).line

/-! ## Kinds -/

/-- The character that a key starts with as it is written, blanks apart. -/
def keyInk (key : String) : Char := (ink? (Quoting.scalar key).toList).getD ':'

/-- The kind of a line with a dash or a key in front. -/
def leadKind (dashes : Bool) (key : String) : LineKind :=
  if dashes || keyInk key = '-' then .dash else .other

theorem isContent_leadKind (dashes : Bool) (key : String) : (leadKind dashes key).IsContent := by
  unfold leadKind
  split
  · exact LineKind.isContent_dash
  · exact LineKind.isContent_other

theorem ofLine_key {key : String} (inked : keyInk key ≠ '#') (rest : List Char) :
    LineKind.ofLine ((Quoting.scalar key).toList ++ ':' :: rest) = leadKind false key := by
  have ink : ink? ((Quoting.scalar key).toList ++ ':' :: rest) = some (keyInk key) := ink?_append_cons _ rfl rest
  rw [LineKind.ofLine_eq_of_ink (by rw [ink]; simpa using inked), ink, leadKind]
  simp

/-- A line with a dash or a key in front. -/
theorem ofLine_leadIn (inked : keyInk d.key ≠ '#') (text : String) :
    LineKind.ofLine (leadIn dashes d.key ++ text).toList = leadKind dashes d.key := by
  cases dashes with
  | true => simpa [leadIn, leadKind] using LineKind.ofLine_dash (' ' :: text.toList)
  | false => simpa [leadIn] using ofLine_key inked (' ' :: text.toList)

theorem kinds_indented (lines : List String) : kinds (lines.map (indentation ++ ·)) = kinds lines := by
  rw [kinds, kinds, List.map_map]
  refine List.map_congr_left fun l _ => ?_
  rw [Function.comp_apply, String.toList_append]
  exact LineKind.ofLine_append (List.all_eq_true.1 (by decide : indentation.toList.all Text.isBlank)) l.toList

/-- A node with a value on its line. -/
theorem kinds_inline (inked : keyInk d.key ≠ '#') {lines : List String} {text : String}
    (written : (formOf d leaf).written d.anchor lines = .inline text) :
    kinds (ownLines dashes d leaf lines) = [leadKind dashes d.key] := by
  rw [ownLines_inline written, kinds, List.map_singleton, ofLine_leadIn inked]

/-- A node with a block. Where the block begins on the line of the node, that line shows the dash. -/
theorem kinds_block (inked : keyInk d.key ≠ '#') {lines body : List String}
    (written : (formOf d leaf).written d.anchor lines = .block (Form.anchored d.anchor "") body)
    (some : body ≠ []) :
    kinds (ownLines dashes d leaf lines) =
      leadKind dashes d.key :: (kinds body).drop (1 - Form.inset dashes d.anchor body) := by
  cases anchor : d.anchor with
  | some a =>
    have inset : Form.inset dashes (Option.some a) body = 1 := by simp [Form.inset]
    have header : (Form.anchored d.anchor "").isEmpty = false := by simp [anchor, Form.anchored]
    rw [ownLines_header written header, inset, kinds, List.map_cons, ofLine_leadIn inked, ← kinds, kinds_indented]
    rfl
  | none =>
    have plain : (formOf d leaf).written d.anchor lines = .block "" body := by rw [written, anchor]; rfl
    cases dashes with
    | false =>
      have key : LineKind.ofLine (Quoting.scalar d.key ++ ":").toList = leadKind false d.key := by
        simpa using ofLine_key inked []
      rw [ownLines_key plain, kinds, List.map_cons, key, ← kinds, kinds_indented]
      rfl
    | true =>
      obtain ⟨first, rest, rfl⟩ := List.exists_cons_of_ne_nil some
      rw [ownLines_dash plain]
      cases sign : first.startsWith "#" with
      | true =>
        have inset : Form.inset true none (first :: rest) = 1 := by simp [Form.inset, sign]
        rw [if_pos rfl, inset, kinds, List.map_cons, ← kinds, kinds_indented]
        rfl
      | false =>
        have inset : Form.inset true none (first :: rest) = 0 := by simp [Form.inset, sign]
        have dash : LineKind.ofLine ("- " ++ first).toList = .dash := by
          simpa using LineKind.ofLine_dash (' ' :: first.toList)
        rw [if_neg Bool.false_ne_true, inset, kinds, List.map_cons, dash, ← kinds, kinds_indented]
        rfl

/-! ## What a forest shows -/

theorem linesOf_ne_nil {f : Forest NodeData} (h : AllScannable dashes f) (some : f ≠ .nil) : linesOf dashes f ≠ [] := by
  obtain ⟨comments, l, rest, opening, -⟩ := emits_forest [] h some
  rw [opening.split]
  simp

/-- A node at the bottom has its value on its line and nothing below it. -/
theorem Scannable.of_bottom {below : Forest NodeData} (h : Scannable dashes d below.isEmpty)
    (bottom : (formOf d below.isEmpty).isBottom = true) (lines : List String) :
    below = .nil ∧ (formOf d below.isEmpty).body lines = [] ∧
      ∃ text, (formOf d below.isEmpty).written d.anchor lines = .inline text := by
  have shape := shape_formOf h.leaf
  generalize formOf d below.isEmpty = form at shape bottom ⊢
  cases shape with
  | aliased _ _ _ empty | scalar _ empty | emptyMapping empty | emptySequence empty =>
    exact ⟨isEmpty_eq_true.1 empty, rfl, _, rfl⟩
  | mapping | sequence => cases bottom

/-- Any other node has a block, which is not empty: what it merges, and what is below it. -/
theorem Scannable.of_block {below : Forest NodeData} (h : Scannable dashes d below.isEmpty)
    (inner : AllScannable (d.type = .array) below) (block : (formOf d below.isEmpty).isBottom = false) :
    (formOf d below.isEmpty).body (linesOf (d.type = .array) below) =
      (formOf d below.isEmpty).mergeLines ++ linesOf (d.type = .array) below ∧
    (formOf d below.isEmpty).body (linesOf (d.type = .array) below) ≠ [] ∧
    (formOf d below.isEmpty).written d.anchor (linesOf (d.type = .array) below) =
      .block (Form.anchored d.anchor "") ((formOf d below.isEmpty).body (linesOf (d.type = .array) below)) := by
  have shape := shape_formOf h.leaf
  generalize formOf d below.isEmpty = form at shape block ⊢
  cases shape with
  | aliased | scalar | emptyMapping | emptySequence => cases block
  | mapping type merges =>
    refine ⟨rfl, ?_, rfl⟩
    cases empty : below.isEmpty with
    | true =>
      obtain ⟨l, single, -⟩ := mergeLine_eq (merges empty)
      simp [Form.body, single]
    | false =>
      have some : below ≠ .nil := fun none => by rw [none] at empty; cases empty
      exact fun none => linesOf_ne_nil inner some (List.append_eq_nil_iff.1 none).2
  | sequence type empty =>
    have some : below ≠ .nil := fun none => by rw [none] at empty; cases empty
    exact ⟨rfl, linesOf_ne_nil inner some, rfl⟩

/-- Lines the last of which is no comment. -/
def Ends (v : List LineKind) : Prop := ∀ kind ∈ v.getLast?, kind.IsContent

theorem Ends.cons {v : List LineKind} (h : Ends v) {kind : LineKind} (content : kind.IsContent) : Ends (kind :: v) := by
  intro last hl
  rw [List.getLast?_cons, Option.mem_some_iff] at hl
  cases same : v.getLast? with
  | none => rw [same] at hl; exact hl ▸ content
  | some x => rw [same] at hl; exact hl ▸ h x same

theorem Ends.append {v : List LineKind} (h : Ends v) (some : v ≠ []) (before : List LineKind) : Ends (before ++ v) := by
  rw [Ends, List.getLast?_append_of_ne_nil _ some]
  exact h

theorem Ends.drop {v : List LineKind} (h : Ends v) (count : Nat) : Ends (v.drop count) := by
  intro last hl
  rw [List.getLast?_drop] at hl
  split at hl
  · cases hl
  · exact h last hl

/-- A block merges others in one line in front of its entries. -/
theorem mergeLines_cases (form : Form) :
    form.mergeLines = [] ∨ ∃ l, form.mergeLines = [l] ∧ HasInk l ∧ LineKind.ofLine l.toList = .other := by
  have sign {l : String} (rest : List Char) (text : l.toList = '<' :: rest) :
      HasInk l ∧ LineKind.ofLine l.toList = .other := by
    have ink : ink? l.toList = some '<' := by rw [text]; exact ink?_append_cons [] rfl rest
    refine ⟨⟨'<', rest, text, rfl, by decide⟩, ?_⟩
    rw [LineKind.ofLine_eq_of_ink (by rw [ink]; decide), ink]
    rfl
  cases form with
  | mapping merged =>
    rcases merged with - | ⟨a, - | ⟨b, names⟩⟩
    · exact .inl rfl
    · exact .inr ⟨_, rfl, sign ('<' :: ':' :: ' ' :: '*' :: a.toList) (by simp)⟩
    · refine .inr ⟨_, rfl, sign ('<' :: ':' :: ' ' :: '[' ::
        ((", ".intercalate ((a :: b :: names).map ("*" ++ ·))).toList ++ [']'])) ?_⟩
      rw [String.toList_append, String.toList_append]
      simp
  | _ => exact .inl rfl

/-- The kinds of what a node shows below its first line. -/
def behind (dashes : Bool) (d : NodeData) (below : Forest NodeData) : List LineKind :=
  let body := (formOf d below.isEmpty).body (linesOf (d.type = .array) below)
  (kinds body).drop (1 - Form.inset dashes d.anchor body)

/-- **The kinds of a node's lines.** -/
theorem kinds_ownLines {below : Forest NodeData} (h : Scannable dashes d below.isEmpty)
    (inner : AllScannable (d.type = .array) below) (inked : keyInk d.key ≠ '#') :
    kinds (ownLines dashes d below.isEmpty (linesOf (d.type = .array) below)) =
      leadKind dashes d.key :: behind dashes d below := by
  rw [behind]
  cases block : (formOf d below.isEmpty).isBottom with
  | true =>
    obtain ⟨-, none, text, written⟩ := h.of_bottom block (linesOf (d.type = .array) below)
    rw [kinds_inline inked written, none, kinds, List.map_nil, List.drop_nil]
  | false =>
    obtain ⟨-, some, written⟩ := h.of_block inner block
    exact kinds_block inked written some

/-- A node is one line and what it shows below. -/
theorem length_ownLines {below : Forest NodeData} (h : Scannable dashes d below.isEmpty)
    (inner : AllScannable (d.type = .array) below) (inked : keyInk d.key ≠ '#') :
    (ownLines dashes d below.isEmpty (linesOf (d.type = .array) below)).length =
      (behind dashes d below).length + 1 := by
  simpa [kinds] using congrArg List.length (kinds_ownLines h inner inked)

theorem kinds_append (lines lines' : List String) : kinds (lines ++ lines') = kinds lines ++ kinds lines' :=
  List.map_append

theorem Scannable.ends_behind {below : Forest NodeData} (h : Scannable dashes d below.isEmpty)
    (inner : AllScannable (d.type = .array) below) (ends : Ends (kinds (linesOf (d.type = .array) below))) :
    Ends (behind dashes d below) := by
  refine Ends.drop ?_ _
  cases block : (formOf d below.isEmpty).isBottom with
  | true =>
    rw [(h.of_bottom block _).2.1]
    exact nofun
  | false =>
    rw [(h.of_block inner block).1, kinds_append]
    cases none : kinds (linesOf (d.type = .array) below) with
    | cons kind rest => exact Ends.append (none ▸ ends) (by simp) _
    | nil =>
      rw [List.append_nil]
      rcases mergeLines_cases (formOf d below.isEmpty) with none | ⟨l, single, -, other⟩
      · rw [none]
        exact nofun
      · rw [single, kinds, List.map_singleton, other]
        rintro _ ⟨⟩
        exact LineKind.isContent_other

/-- **The last line of a forest is no comment.** -/
theorem ends_linesOf {f : Forest NodeData} (h : AllScannable dashes f)
    (inked : f.Everywhere fun r => keyInk r.label.key ≠ '#') : Ends (kinds (linesOf dashes f)) := by
  induction f generalizing dashes with
  | nil => exact nofun
  | cons d below ss ihc ihs =>
    obtain ⟨here, inner, others⟩ := h
    obtain ⟨own, inkedBelow, inkedBehind⟩ := Forest.everywhere_cons.1 inked
    have block := here.ends_behind inner (ihc inner inkedBelow)
    rw [linesOf, kinds_append, kinds_append]
    cases none : kinds (linesOf dashes ss) with
    | cons kind rest => exact Ends.append (none ▸ ihs others inkedBehind) (by simp) _
    | nil =>
      rw [List.append_nil, kinds_ownLines here inner own]
      exact Ends.append (block.cons (isContent_leadKind dashes d.key)) (by simp) _

end LayeredConfig.Yaml
