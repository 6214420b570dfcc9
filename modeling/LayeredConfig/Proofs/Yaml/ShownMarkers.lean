import LayeredConfig.Proofs.Yaml.Refusal
import LayeredConfig.Proofs.Yaml.Saved

/-!
# The markers that a saved configuration shows

What is written for a node is a head, and below it the lines of its children (`head`, `rendering`). In
the text of a configuration the lines of each rendering stand one below the other, behind a lead that
its ancestors give them (`Encloses`).

A head has room for every alias only where there is a merge key. So the anchor and the aliases of an
object are all shown, and so are those of any other node with at most one alias; of several aliases of
a scalar or of an empty array the first is written and the others are lost
(`markers_of_emit`, `second_alias_lost`).
-/

namespace LayeredConfig.Yaml

/-! ## Words -/

/-- Whether a character stands between words: a gap, or a sign of flow collections. -/
def separates (c : Char) : Bool := isGap c || isFlow c

/-- The words of a text. -/
def words (text : String) : List String := (text.toList.splitOnP separates).map String.ofList

/-- The words of what is written for a node. -/
def Written.words : Written → List String
  | .inline text => Yaml.words text
  | .block header lines => Yaml.words header ++ lines.flatMap Yaml.words

/-- The anchor of a node and its aliases, as words. -/
def markers (d : NodeData) : List String :=
  (d.anchor.map ("&" ++ ·)).toList ++ d.aliases.map ("*" ++ ·)

/-- **Words around a separator.** -/
theorem words_eq_append {text : String} (before : String) (x : Char) (after : String)
    (same : text.toList = before.toList ++ x :: after.toList) (sep : separates x) :
    words text = words before ++ words after := by
  rw [words, same, List.splitOnP_append_cons _ _ sep, List.map_append]
  rfl

theorem words_sublist {text after : String} (before : String) (x : Char)
    (same : text.toList = before.toList ++ x :: after.toList) (sep : separates x) :
    (words after).Sublist (words text) := by
  rw [words_eq_append before x after same sep]
  exact List.sublist_append_right _ _

theorem words_eq_singleton {text : String} (ink : ∀ c ∈ text.toList, separates c = false) :
    words text = [text] := by
  rw [words, List.splitOnP_eq_singleton ink, List.map_singleton, String.ofList_toList]

variable {anchor : Option String} {a : String} {names : List String}

theorem separates_of_isAnchorChar {c : Char} (h : isAnchorChar c) : separates c = false := by
  simp only [isAnchorChar, Bool.and_eq_true, Bool.not_eq_true'] at h
  rw [separates, h.1.1, h.1.2]
  rfl

/-- A sign and a name are one word. -/
theorem words_marker {sign : String} (ink : sign.toList.all (!separates ·)) (name : IsName a) :
    words (sign ++ a) = [sign ++ a] := by
  refine words_eq_singleton fun c hc => ?_
  rw [String.toList_append] at hc
  rcases List.mem_append.1 hc with hc | hc
  · simpa using List.all_eq_true.1 ink c hc
  · exact separates_of_isAnchorChar (name.2 c hc)

theorem words_anchor (name : IsName a) : words ("&" ++ a) = ["&" ++ a] := words_marker (by decide) name

theorem words_alias (name : IsName a) : words ("*" ++ a) = ["*" ++ a] := words_marker (by decide) name

/-- An anchor in front of a text is shown. -/
theorem anchor_sublist_words (name : ∀ a ∈ anchor, IsName a) (text : String) :
    (anchor.map ("&" ++ ·)).toList.Sublist (words (Form.anchored anchor text)) := by
  cases anchor with
  | none => exact List.nil_sublist _
  | some a =>
    have own : words ("&" ++ a) = ["&" ++ a] := words_anchor (name a rfl)
    show ["&" ++ a].Sublist (words (if text.isEmpty then "&" ++ a else "&" ++ a ++ " " ++ text))
    split
    · rw [own]
    · rw [words_eq_append ("&" ++ a) ' ' text (by simp) (by decide), own]
      exact List.sublist_append_left _ _

/-- The aliases in a flow sequence are shown. -/
theorem aliases_sublist_flow (name : ∀ a ∈ names, IsName a) :
    (names.map ("*" ++ ·)).Sublist (words (", ".intercalate (names.map ("*" ++ ·)) ++ "]")) := by
  induction names with
  | nil => exact List.nil_sublist _
  | cons a names ih =>
    have own : words ("*" ++ a) = ["*" ++ a] := words_alias (name a List.mem_cons_self)
    cases names with
    | nil =>
      rw [List.map_singleton, String.intercalate_singleton,
        words_eq_append ("*" ++ a) ']' "" (by simp) (by decide), own]
      exact List.sublist_append_left _ _
    | cons b names =>
      have rest := ih fun c hc => name c (List.mem_cons_of_mem _ hc)
      rw [List.map_cons, List.map_cons, String.intercalate_cons_cons, ← List.map_cons,
        words_eq_append ("*" ++ a) ','
          (" " ++ (", ".intercalate ((b :: names).map ("*" ++ ·)) ++ "]")) (by simp) (by decide), own]
      refine .cons_cons _ (rest.trans ?_)
      exact words_sublist "" ' ' (by simp) (by decide)

/-- The aliases under a merge key are shown. -/
theorem aliases_sublist_mergeLine (name : ∀ a ∈ names, IsName a) :
    (names.map ("*" ++ ·)).Sublist ((mergeLine names).flatMap words) := by
  rcases names with - | ⟨a, - | ⟨b, names⟩⟩
  · exact List.nil_sublist _
  · rw [List.map_singleton, mergeLine, List.flatMap_singleton, ← words_alias (name a List.mem_cons_self)]
    exact words_sublist "<<:" ' ' (by simp) (by decide)
  · show List.Sublist _ (List.flatMap words
      ["<<: [" ++ ", ".intercalate ((a :: b :: names).map ("*" ++ ·)) ++ "]"])
    rw [List.flatMap_singleton]
    refine (aliases_sublist_flow name).trans ?_
    exact words_sublist "<<: " '[' (by simp) (by decide)

/-! ## What is written of a node -/

/-- A node without its children. -/
def head (r : Draft) : Written := written r.label r.children.isEmpty []

/-- What is written, with further lines below it. -/
def Written.above (lines : List String) : Written → Written
  | .inline text => .inline text
  | .block header own => .block header (own ++ lines)

/-- A node with the lines of its children. -/
def rendering (r : Draft) : Written := (head r).above (linesOf (r.label.type = .array) r.children)

theorem head_eq (r : Draft) :
    head r = (formOf r.label r.children.isEmpty).written r.label.anchor [] := by
  rw [head, written_eq, ite_self]

theorem rendering_eq (r : Draft) :
    rendering r = (formOf r.label r.children.isEmpty).written r.label.anchor
      (linesOf (r.label.type = .array) r.children) := by
  rw [rendering, head_eq]
  cases formOf r.label r.children.isEmpty with
  | mapping merged =>
    show Written.block _ (mergeLine merged ++ [] ++ _) = _
    rw [List.append_nil]
    rfl
  | aliased | scalar | emptyMapping | emptySequence | sequence => rfl

/-! ## Which markers are shown -/

section Shown

variable {r : Draft}

/-- Without aliases, the anchor is all there is to show. -/
theorem markers_sublist_anchored {d : NodeData} (anchored : ∀ a ∈ d.anchor, IsName a)
    (single : d.aliases = []) (text : String) :
    (markers d).Sublist (words (Form.anchored d.anchor text)) := by
  rw [markers, single, List.map_nil, List.append_nil]
  exact anchor_sublist_words anchored text

/-- Of the aliases of a node that is written as an alias, the first is shown. -/
theorem markers_sublist_alias_iff {d : NodeData} {more : List String} (name : IsName a)
    (bare : d.anchor = none) (aliases : d.aliases = a :: more) :
    (markers d).Sublist (words ("*" ++ a)) ↔ d.aliases.length ≤ 1 := by
  have listed : markers d = ("*" ++ a) :: more.map ("*" ++ ·) := by
    rw [markers, bare, aliases]
    rfl
  rw [words_alias name, listed, aliases, List.length_cons]
  constructor
  · intro shown
    have length := shown.length_le
    rw [List.length_cons, List.length_map] at length
    exact length
  · intro single
    obtain rfl : more = [] := List.length_eq_zero_iff.1 (by omega)
    exact List.Sublist.refl _

/-- An object is written with a merge key, unless it has no aliases or is an alias itself. -/
theorem head_of_object (object : r.label.type = .object) :
    head r = .block (Form.anchored r.label.anchor "") (mergeLine r.label.aliases) ∨
      (r.label.aliases = [] ∧ head r = .inline (Form.anchored r.label.anchor "\x7b\x7d")) ∨
        ∃ a, r.label.aliases = [a] ∧ r.label.anchor = none ∧ head r = .inline ("*" ++ a) := by
  rw [head_eq, formOf, object]
  dsimp only
  split
  · exact Or.inl (by rw [Form.written, List.append_nil])
  · split
    · rename_i empty
      exact Or.inr (Or.inl ⟨List.isEmpty_iff.1 empty, rfl⟩)
    · rename_i nonempty
      obtain ⟨a, more, aliases⟩ := List.exists_cons_of_ne_nil (mt List.isEmpty_iff.2 nonempty)
      rw [aliases]
      split
      · rename_i bare
        rw [Bool.and_eq_true, Option.isNone_iff_eq_none, List.isEmpty_iff] at bare
        obtain rfl : more = [] := bare.1
        exact Or.inr (Or.inr ⟨a, rfl, bare.2, rfl⟩)
      · exact Or.inl (by rw [Form.written, List.append_nil])

/-- **An object shows all its markers.** -/
theorem shown_of_object (object : r.label.type = .object) (anchored : ∀ a ∈ r.label.anchor, IsName a)
    (aliased : ∀ a ∈ r.label.aliases, IsName a) : (markers r.label).Sublist (head r).words := by
  rcases head_of_object object with block | ⟨none, empty⟩ | ⟨a, one, bare, repeated⟩
  · rw [block]
    exact (anchor_sublist_words anchored "").append (aliases_sublist_mergeLine aliased)
  · rw [empty]
    exact markers_sublist_anchored anchored none _
  · rw [repeated]
    have name : IsName a := aliased a (by rw [one]; exact List.mem_singleton_self a)
    exact (markers_sublist_alias_iff name bare one).2 (by rw [one]; exact le_rfl)

/-- A scalar and an empty array are written with their anchor, or as an alias. -/
theorem shown_iff_of_inline (text : String)
    (inline : head r = .inline (r.label.aliases.head?.elim (Form.anchored r.label.anchor text) ("*" ++ ·)))
    (anchored : ∀ a ∈ r.label.anchor, IsName a) (aliased : ∀ a ∈ r.label.aliases, IsName a)
    (apart : r.label.aliases = [] ∨ r.label.anchor = none) :
    (markers r.label).Sublist (head r).words ↔ r.label.aliases.length ≤ 1 := by
  cases aliases : r.label.aliases with
  | nil =>
    rw [aliases] at inline
    rw [inline]
    exact iff_of_true (markers_sublist_anchored anchored aliases text) (Nat.zero_le 1)
  | cons a more =>
    have name : IsName a := aliased a (by rw [aliases]; exact List.mem_cons_self)
    have bare : r.label.anchor = none := apart.resolve_left (by rw [aliases]; exact List.cons_ne_nil _ _)
    rw [aliases] at inline
    rw [inline]
    show (markers r.label).Sublist (words ("*" ++ a)) ↔ _
    rw [← aliases]
    exact markers_sublist_alias_iff name bare aliases

/-- **Which nodes show all their markers.** Of the nodes that are written, objects, and all others with
at most one alias. -/
theorem shown_iff (fine : unwritable? r.label r.children.isEmpty = none)
    (anchored : ∀ a ∈ r.label.anchor, IsName a) (aliased : ∀ a ∈ r.label.aliases, IsName a) :
    (markers r.label).Sublist (head r).words ↔
      r.label.type = .object ∨ r.label.aliases.length ≤ 1 := by
  obtain ⟨scalars, emptyArrays, arrays⟩ := unwritable?_eq_none_iff.1 fine
  rcases r.label.type.isScalar_or with scalar | object | array
  · have other : r.label.type ≠ .object := by
      intro object
      rw [object] at scalar
      cases scalar
    have contained : r.label.type.isContainer = false := by rw [ValueType.isContainer, scalar]; rfl
    rw [or_iff_right other]
    refine shown_iff_of_inline (scalarText r.label.value) ?_ anchored aliased (scalars scalar)
    rw [head_eq, formOf_scalar contained]
    cases r.label.aliases <;> rfl
  · exact iff_of_true (shown_of_object object anchored aliased) (Or.inl object)
  · have other : r.label.type ≠ .object := by
      rw [array]
      nofun
    rw [or_iff_right other]
    cases leaf : r.children.isEmpty with
    | true =>
      have apart := emptyArrays array leaf
      refine shown_iff_of_inline "[]" ?_ anchored aliased apart
      rw [head_eq, formOf, array, leaf]
      cases aliases : r.label.aliases with
      | nil => cases r.label.anchor <;> rfl
      | cons a more =>
        rw [apart.resolve_left (by rw [aliases]; exact List.cons_ne_nil _ _)]
        rfl
    | false =>
      have none := arrays array leaf
      refine iff_of_true ?_ (by rw [none]; exact Nat.zero_le 1)
      rw [head_eq, formOf, array, leaf]
      show (markers r.label).Sublist (words (Form.anchored r.label.anchor "") ++ [])
      rw [List.append_nil]
      exact markers_sublist_anchored anchored none ""

end Shown

/-! ## Where renderings stand -/

/-- So many blanks. -/
def blanks (n : Nat) : String := String.ofList (List.replicate n ' ')

theorem blanks_append (m n : Nat) : blanks m ++ blanks n = blanks (m + n) := by
  rw [blanks, blanks, blanks, ← String.ofList_append, List.replicate_append_replicate]

/-- Lines behind a lead: the first behind its text, the others behind as many blanks. -/
def ledBy (lead : String) : List String → List String
  | [] => []
  | first :: rest => (lead ++ first) :: rest.map (blanks lead.length ++ ·)

/-- Lines with these lines among them, one below the other, behind a lead of blanks and dashes. -/
def Encloses (lines part : List String) : Prop :=
  ∃ before lead after, lines = before ++ ledBy lead part ++ after ∧ ∀ c ∈ lead.toList, c = ' ' ∨ c = '-'

variable {lines part : List String}

theorem ledBy_empty (lines : List String) : ledBy "" lines = lines := by
  cases lines with
  | nil => rfl
  | cons first rest =>
    have same : rest.map (blanks 0 ++ ·) = rest := by
      refine (List.map_congr_left fun l _ => ?_).trans (List.map_id rest)
      exact String.empty_append
    show ("" ++ first) :: rest.map (blanks 0 ++ ·) = _
    rw [same, String.empty_append]

theorem ledBy_indentation (lines : List String) : ledBy indentation lines = lines.map (indentation ++ ·) := by
  cases lines <;> rfl

theorem ledBy_blanks (n : Nat) (lines : List String) : ledBy (blanks n) lines = lines.map (blanks n ++ ·) := by
  cases lines with
  | nil => rfl
  | cons first rest =>
    have length : (blanks n).length = n := by rw [blanks, String.length_ofList, List.length_replicate]
    rw [ledBy, length, List.map_cons]

/-- Behind two leads one stands behind the one and the other. -/
theorem ledBy_ledBy (outer inner : String) (lines : List String) :
    ledBy outer (ledBy inner lines) = ledBy (outer ++ inner) lines := by
  cases lines with
  | nil => rfl
  | cons first rest =>
    rw [ledBy, ledBy, ledBy, List.map_map, String.length_append, String.append_assoc]
    refine congrArg _ (List.map_congr_left fun l _ => ?_)
    rw [← blanks_append, String.append_assoc]
    rfl

theorem ledBy_append_of_ne_nil {front : List String} (nonempty : front ≠ []) (lead : String)
    (back : List String) : ledBy lead (front ++ back) = ledBy lead front ++ ledBy (blanks lead.length) back := by
  obtain ⟨first, rest, rfl⟩ := List.exists_cons_of_ne_nil nonempty
  rw [List.cons_append, ledBy, ledBy, ledBy_blanks, List.map_append]
  rfl

namespace Encloses

theorem refl (lines : List String) : Encloses lines lines :=
  ⟨[], "", [], by rw [ledBy_empty, List.nil_append, List.append_nil], nofun⟩

theorem nil (lines : List String) : Encloses lines [] :=
  ⟨[], "", lines, rfl, nofun⟩

/-- Among more lines. -/
theorem among (h : Encloses lines part) (front back : List String) : Encloses (front ++ lines ++ back) part := by
  obtain ⟨before, lead, after, rfl, signs⟩ := h
  exact ⟨front ++ before, lead, after ++ back, by simp only [List.append_assoc], signs⟩

/-- Behind a further lead. -/
theorem ledBy (h : Encloses lines part) (lead : String) (signs : ∀ c ∈ lead.toList, c = ' ' ∨ c = '-') :
    Encloses (ledBy lead lines) part := by
  obtain ⟨before, inner, after, rfl, signs'⟩ := h
  cases part with
  | nil => exact .nil _
  | cons first rest =>
    have block : Yaml.ledBy inner (first :: rest) ≠ [] := List.cons_ne_nil _ _
    have both (lead : String) (signs : ∀ c ∈ lead.toList, c = ' ' ∨ c = '-') :
        ∀ c ∈ (lead ++ inner).toList, c = ' ' ∨ c = '-' := by
      intro c hc
      rw [String.toList_append] at hc
      exact (List.mem_append.1 hc).elim (signs c) (signs' c)
    rw [List.append_assoc]
    cases before with
    | nil =>
      rw [List.nil_append, ledBy_append_of_ne_nil block, ledBy_ledBy]
      exact ⟨[], _, _, rfl, both lead signs⟩
    | cons top more =>
      have blank : ∀ c ∈ (blanks lead.length).toList, c = ' ' ∨ c = '-' := by
        intro c hc
        rw [blanks, String.toList_ofList] at hc
        exact Or.inl (List.eq_of_mem_replicate hc)
      rw [ledBy_append_of_ne_nil (List.cons_ne_nil _ _), ledBy_append_of_ne_nil block, ledBy_ledBy,
        ← List.append_assoc]
      exact ⟨_, _, _, rfl, both _ blank⟩

variable {header key : String}

/-- The lines of a block, behind its key. -/
theorem underKey (h : Encloses lines part) : Encloses ((Written.block header lines).underKey key) part := by
  have indented := h.ledBy indentation (by simp [indentation])
  rw [ledBy_indentation] at indented
  have among := indented.among [if header.isEmpty then key ++ ":" else key ++ ": " ++ header] []
  rw [List.append_nil] at among
  exact among

/-- The lines of a block, behind its dash. -/
theorem underDash (h : Encloses lines part) : Encloses (Written.block header lines).underDash part := by
  have below (line : String) : Encloses (line :: lines.map (indentation ++ ·)) part := by
    have indented := h.ledBy indentation (by simp [indentation])
    rw [ledBy_indentation] at indented
    have among := indented.among [line] []
    rw [List.append_nil] at among
    exact among
  unfold Written.underDash
  dsimp only
  split
  · exact below _
  · cases lines with
    | nil => exact h
    | cons first rest =>
      dsimp only
      split
      · exact below _
      · exact h.ledBy "- " (by simp)

end Encloses

/-- The lines of a node behind its dash or its key. -/
def leadLines (dashes : Bool) (r : Draft) : List String :=
  if dashes then (rendering r).underDash else (rendering r).underKey (Quoting.scalar r.label.key)

theorem ownLines_eq (dashes : Bool) (r : Draft) :
    ownLines dashes r.label r.children.isEmpty (linesOf (r.label.type = .array) r.children) =
      leadLines dashes r := by
  rw [leadLines, rendering_eq]
  rfl

/-- Children are written in a block. -/
theorem rendering_of_children {r : Draft} (leaf : ScalarLeaf r) (inner : r.children.isEmpty = false) :
    ∃ header front, rendering r = .block header (front ++ linesOf (r.label.type = .array) r.children) := by
  rw [rendering_eq, inner]
  rcases r.label.type.isScalar_or with scalar | object | array
  · rw [leaf scalar] at inner
    cases inner
  · rw [formOf, object]
    exact ⟨_, _, rfl⟩
  · rw [formOf, array]
    exact ⟨_, [], rfl⟩

/-- What stands in the lines of its children stands in those of a node. -/
theorem Encloses.leadLines {r : Draft} (leaf : ScalarLeaf r) (inner : r.children.isEmpty = false)
    (h : Encloses (linesOf (r.label.type = .array) r.children) part) (dashes : Bool) :
    Encloses (leadLines dashes r) part := by
  obtain ⟨header, front, block⟩ := rendering_of_children leaf inner
  have body := h.among front []
  rw [List.append_nil] at body
  rw [Yaml.leadLines, block]
  cases dashes with
  | true => exact body.underDash
  | false => exact body.underKey

/-- A node stands in some lines, behind its key or behind a dash. -/
def StandsAmong (lines : List String) (r : Draft) : Prop := ∃ dashes, Encloses lines (leadLines dashes r)

theorem StandsAmong.mono {lines' : List String} {r : Draft} (h : StandsAmong lines r)
    (more : ∀ part, Encloses lines part → Encloses lines' part) : StandsAmong lines' r :=
  h.imp fun _ => more _

/-- **Every node stands in the lines of its forest.** -/
theorem standsAmong_linesOf {f : Forest NodeData} (leaves : f.Everywhere ScalarLeaf) (dashes : Bool) :
    f.Everywhere (StandsAmong (linesOf dashes f)) := by
  induction f generalizing dashes with
  | nil => exact Forest.everywhere_nil
  | cons d below ss ihc ihs =>
    obtain ⟨leaf, inner, others⟩ := Forest.everywhere_cons.1 leaves
    rw [linesOf, ownLines_eq dashes ⟨d, below⟩]
    have here (part : List String) (h : Encloses (leadLines dashes ⟨d, below⟩) part) :=
      h.among (commentLines d.comment) (linesOf dashes ss)
    have beside (part : List String) (h : Encloses (linesOf dashes ss) part) :=
      h.among (commentLines d.comment ++ leadLines dashes ⟨d, below⟩) []
    rw [List.append_nil] at beside
    refine Forest.everywhere_cons.2 ⟨⟨dashes, here _ (.refl _)⟩, ?_, ?_⟩
    · cases children : below.isEmpty with
      | true =>
        rw [isEmpty_eq_true.1 children]
        exact Forest.everywhere_nil
      | false =>
        exact (ihc inner (d.type = .array)).mono fun r stands =>
          stands.mono fun part h => here part (h.leadLines leaf children dashes)
    · exact (ihs others dashes).mono fun r stands => stands.mono beside

/-! ## Saved configurations -/

/-- The aliases of what is written without a fault are names of anchors: what holds of the anchors holds
of them. -/
theorem aliases_of_nodeLines {P : String → Prop} {dashes : Bool} {f : Forest NodeData} {path : String}
    {declared declared' : List String}
    (h : nodeLines true path dashes f declared = .ok (lines, declared')) (leaves : f.Everywhere ScalarLeaf)
    (anchored : f.Everywhere fun r => ∀ a ∈ r.label.anchor, P a) (known : ∀ a ∈ declared, P a) :
    (f.Everywhere fun r => ∀ a ∈ r.label.aliases, P a) ∧ ∀ a ∈ declared', P a := by
  induction f generalizing dashes path declared declared' lines with
  | nil =>
    cases h
    exact ⟨Forest.everywhere_nil, known⟩
  | cons d below ss ihc ihs =>
    obtain ⟨leaf, inner, others⟩ := Forest.everywhere_cons.1 leaves
    obtain ⟨own, innerAnchors, otherAnchors⟩ := Forest.everywhere_cons.1 anchored
    obtain ⟨_, declared₁, declared₂, _, _, announced, written, later⟩ := nodeLines_cons_ok leaf h
    obtain ⟨rfl, aliases, -⟩ := announce_ok announced
    have known₁ : ∀ a ∈ d.anchor.toList ++ declared, P a := by
      intro a ha
      rcases List.mem_append.1 ha with ha | ha
      · exact own a (Option.mem_toList.1 ha)
      · exact known a ha
    obtain ⟨below, known₂⟩ := ihc written inner innerAnchors known₁
    obtain ⟨beside, known'⟩ := ihs later others otherAnchors known₂
    exact ⟨Forest.everywhere_cons.2 ⟨fun a ha => known₁ a (aliases a ha), below, beside⟩, known'⟩

variable {c : Configuration} {text : String}

/-- Nothing is written of the comments of the two roots. -/
theorem everywhere_of_entries {P : Rose NodeData → Prop} (h : (entries c).Everywhere P)
    (bare : ∀ d cs, P ⟨{ d with comment := none }, cs⟩ → P ⟨d, cs⟩) : c.Everywhere P := by
  obtain ⟨default, defaults, rest⟩ := Forest.everywhere_cons.1 h
  obtain ⟨environments, overrides, -⟩ := Forest.everywhere_cons.1 rest
  exact ⟨⟨bare _ _ default, defaults⟩, bare _ _ environments, overrides⟩

/-- **What a saved configuration shows of its markers.** In the text of a configuration every node
stands as it is rendered. The anchor and the aliases of an object are all written, in order, and those
of another node iff it has at most one alias. -/
theorem markers_of_emit (saved : emit c = .ok text) (leaves : c.Everywhere ScalarLeaf)
    (anchored : c.Everywhere fun r => ∀ a ∈ r.label.anchor, IsName a) :
    ∃ lines, text = joinLines lines ∧ c.Everywhere fun r =>
      StandsAmong lines r ∧
        ((markers r.label).Sublist (head r).words ↔
          r.label.type = .object ∨ r.label.aliases.length ≤ 1) := by
  obtain ⟨lines, declared, written, rfl⟩ := emit_eq_ok saved
  obtain rfl := lines_eq written
  have leaves := everywhere_entries leaves fun _ _ h => h
  have anchored := everywhere_entries anchored fun _ _ h => h
  have fine := writable_of_nodeLines written leaves
  obtain ⟨aliased, -⟩ := aliases_of_nodeLines written leaves anchored nofun
  refine ⟨_, rfl, everywhere_of_entries ?_ fun d cs h => h⟩
  refine (standsAmong_linesOf leaves false).and ?_
  intro r inside
  exact shown_iff (fine r inside) (anchored r inside) (aliased r inside)

/-- Two anchored objects, an anchored object that merges both, and an anchored array of an alias. -/
def mergedTwice : Configuration where
  default := .ofDrafts .default <| .ofRoots
    [⟨{ key := "a", anchor := some "a" }, .ofRose (Draft.scalar "x" (.number (.int 1)))⟩,
      ⟨{ key := "b", anchor := some "b" }, .nil⟩,
      ⟨{ key := "both", anchor := some "c", aliases := ["a", "b"] }, .ofRose (Draft.scalar "y" (.boolean true))⟩,
      ⟨{ key := "list", type := .array, anchor := some "l" }, .ofRose ⟨{ key := "[0]", aliases := ["c"] }, .nil⟩⟩]
  environments := .empty .environments

theorem markers_of_emit_mergedTwice : ∃ text, emit mergedTwice = .ok text ∧ mergedTwice.Everywhere ScalarLeaf ∧
    (mergedTwice.Everywhere fun r => ∀ a ∈ r.label.anchor, IsName a) ∧
    ∃ lines, text = joinLines lines ∧ mergedTwice.Everywhere fun r =>
      StandsAmong lines r ∧ (markers r.label).Sublist (head r).words := by
  let text := "default:\n  a: &a\n    x: 1\n  b: &b \x7b\x7d\n  both: &c\n    <<: [*a, *b]\n    y: true\n" ++
    "  list: &l\n    - *c\nenvironments: \x7b\x7d\n"
  have saved : emit mergedTwice = .ok text := by decide +kernel
  have leaves : mergedTwice.Everywhere ScalarLeaf := by decide +kernel
  have anchored : mergedTwice.Everywhere fun r => ∀ a ∈ r.label.anchor, IsName a := by decide +kernel
  have shows : mergedTwice.Everywhere fun r => r.label.type = .object ∨ r.label.aliases.length ≤ 1 := by
    decide +kernel
  obtain ⟨lines, joined, shown⟩ := markers_of_emit saved leaves anchored
  exact ⟨text, saved, leaves, anchored, lines, joined,
    (shown.1.and shows.1).mono fun r h => ⟨h.1.1, h.1.2.2 h.2⟩,
    (shown.2.and shows.2).mono fun r h => ⟨h.1.1, h.1.2.2 h.2⟩⟩

/-- A number that repeats two others. -/
def aliasedTwice : Configuration where
  default := .ofDrafts .default <| .ofRoots
    [⟨{ NodeData.ofScalar "a" (.number (.int 1)) with anchor := some "a" }, .nil⟩,
      ⟨{ NodeData.ofScalar "b" (.number (.int 2)) with anchor := some "b" }, .nil⟩,
      ⟨{ key := "s", type := .number, aliases := ["a", "b"] }, .nil⟩]
  environments := .empty .environments

/-- The second alias of the number is nowhere in the text. -/
theorem second_alias_lost : ∃ text, emit aliasedTwice = .ok text ∧ aliasedTwice.Everywhere ScalarLeaf ∧
    (aliasedTwice.Everywhere fun r => ∀ a ∈ r.label.anchor, IsName a) ∧ "*b" ∉ words text ∧
    ¬aliasedTwice.Everywhere fun r => (markers r.label).Sublist (head r).words :=
  ⟨"default:\n  a: &a 1\n  b: &b 2\n  s: *a\nenvironments: \x7b\x7d\n", by decide +kernel, by decide +kernel,
    by decide +kernel, by decide +kernel, by decide +kernel⟩

end LayeredConfig.Yaml
