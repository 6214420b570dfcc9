import LayeredConfig.Proofs.Yaml.LineKinds

/-!
# The comments that are found

What a written forest is read back with is said node by node: an item whose block begins with a dash on a line
of its own strays, and takes the comment of the first node of the block for its own (`strays`, `found`). Reading
is followed from the lines up: a node stands on a line (`Source.Stands`), its block begins behind its dash or
below it (`BlockAt`), and the comment of an item is the one above its dash unless it strays
(`Source.Stands.itemComment`). The invariant of the search is what is claimed when a block is entered: all of it
is above, and right above nothing is left to claim (`Enters`, `Faces`).
-/

namespace LayeredConfig.Yaml

open Document

/-! ## What is found -/

/-- The key of a node and its comment. -/
def commentOf (d : NodeData) : String × Option String := (d.key, d.comment)

/-- The comment of the first node of a forest. -/
def firstComment : Forest NodeData → Option String
  | .nil => none
  | .cons d _ _ => d.comment

/-- Whether the block of an item begins with a dash: with that of an item, or with a key that starts with one. -/
def beginsWithDash (d : NodeData) : Forest NodeData → Bool
  | .nil => false
  | .cons first _ _ => (d.type = .array || d.aliases.isEmpty) && leadKind (d.type = .array) first.key = .dash

/-- Whether an item is given the comment above the first line of its block: that line begins with a dash and is not
the line of the item's own dash. -/
def strays (d : NodeData) (below : Forest NodeData) : Bool :=
  beginsWithDash d below && (d.anchor.isSome || (firstComment below).isSome)

/-- The comments that are found at the nodes of a forest, behind keys or behind dashes. Where `taken`, that of the first
node is given to the item that it is below. -/
def found (dashes taken : Bool) : Forest NodeData → Forest (String × Option String)
  | .nil => .nil
  | .cons d below ss =>
    let stray := dashes && strays d below
    .cons (d.key, if stray then firstComment below else if taken then none else d.comment)
      (found (d.type = .array) stray below) (found dashes false ss)

/-- The comments around the dash of an item stay where they are: where its block begins with a dash, the first node of
the block has no comment, and the item has none if it is anchored. -/
def Keeps (item : Rose NodeData) : Prop :=
  beginsWithDash item.label item.children →
    firstComment item.children = none ∧ (item.label.anchor.isSome → item.label.comment = none)

/-- The items of an array keep the comments around their dashes. -/
def ItemsKeep (r : Rose NodeData) : Prop := r.label.type = .array → ∀ item ∈ r.children.roots, Keeps item

instance (item : Rose NodeData) : Decidable (Keeps item) :=
  inferInstanceAs (Decidable (beginsWithDash item.label item.children →
    firstComment item.children = none ∧ (item.label.anchor.isSome → item.label.comment = none)))

instance (r : Rose NodeData) : Decidable (ItemsKeep r) :=
  inferInstanceAs (Decidable (r.label.type = .array → ∀ item ∈ r.children.roots, Keeps item))

theorem keeps_iff (d : NodeData) (below : Forest NodeData) :
    Keeps ⟨d, below⟩ ↔ (strays d below → firstComment below = none ∧ d.comment = none) := by
  unfold Keeps strays
  cases beginsWithDash d below <;> cases d.anchor <;> cases firstComment below <;> simp

/-- **Comments are found at their nodes** iff all items keep those around their dashes, and that of the first node is
not taken. -/
theorem found_eq_iff {dashes taken : Bool} {f : Forest NodeData} :
    found dashes taken f = f.map commentOf ↔
      f.Everywhere ItemsKeep ∧ (dashes → ∀ item ∈ f.roots, Keeps item) ∧ (taken → firstComment f = none) := by
  induction f generalizing dashes taken with
  | nil => simp [found, Forest.map, Forest.roots, firstComment]
  | cons d below ss ihc ihs =>
    rw [found, Forest.map, Forest.cons.injEq, ihc, ihs, Forest.everywhere_cons, Forest.roots, List.forall_mem_cons,
      commentOf, Prod.mk.injEq, keeps_iff]
    simp only [ItemsKeep, firstComment, decide_eq_true_eq, true_and, Bool.and_eq_true]
    -- An item that strays has the comment it is given, and the first node below it none, iff neither has one.
    cases dashes <;> cases strays d below <;> cases taken <;> simp <;> grind

/-! ## Where nodes stand -/

namespace Source

variable {s : Source} {n : Nat} {claimed : Claimed}

/-- From a line on, a source has lines of these kinds, the first of which may stand behind a dash. -/
def Begins (s : Source) (n : Nat) : List LineKind → Prop
  | [] => True
  | kind :: rest => (s.kind? n = some kind ∨ s.kind? n = some .dash ∧ kind.IsContent) ∧ s.Shows (n + 1) rest

theorem Shows.begins {v : List LineKind} (h : s.Shows n v) : s.Begins n v := by
  cases v with
  | nil => trivial
  | cons kind rest => exact ⟨.inl h.1, h.2⟩

/-- A comment does not stand behind a dash. -/
theorem Begins.comment {comment : Option String} {rest : List LineKind}
    (note : ∀ text ∈ comment, Text.IsNote text) (h : s.Begins n (kinds (Yaml.commentLines comment) ++ rest)) :
    s.Shows n (kinds (Yaml.commentLines comment)) ∧ s.Begins (n + (Yaml.commentLines comment).length) rest := by
  rw [length_commentLines note]
  rw [kinds_commentLines note] at h ⊢
  generalize bodies comment = parts at h ⊢
  cases parts with
  | nil => exact ⟨trivial, h⟩
  | cons body more =>
    obtain ⟨first, others⟩ := id h
    have same : s.kind? n = some (.comment body) := first.resolve_right fun behind => behind.2 body rfl
    have all : s.Shows n ((body :: more).map .comment ++ rest) := ⟨same, others⟩
    rw [shows_append, List.length_map] at all
    exact ⟨all.1, all.2.begins⟩

/-- A node stands on a line, with its block below. -/
structure Stands (s : Source) (line : Nat) (dashes : Bool) (d : NodeData) (below : Forest NodeData) : Prop where
  lead : s.kind? line = some (leadKind dashes d.key) ∨ s.kind? line = some .dash
  block : s.Shows (line + 1) (behind dashes d below)

variable {dashes : Bool} {d : NodeData} {below : Forest NodeData}

theorem Stands.content (h : s.Stands n dashes d below) : ∀ kind ∈ s.kind? n, kind.IsContent := by
  intro kind hk
  rcases h.lead with lead | lead <;> rw [lead, Option.mem_some_iff] at hk <;> rw [← hk]
  · exact isContent_leadKind dashes d.key
  · exact LineKind.isContent_dash

theorem Stands.dash (h : s.Stands n true d below) : s.kind? n = some .dash := h.lead.elim id id

/-- Right below a node there is no comment. -/
theorem Stands.clear (h : s.Stands n dashes d below) (ends : Ends (behind dashes d below))
    (above : ∀ l ∈ claimed, l < n + ((behind dashes d below).length + 1)) :
    s.Clear claimed (n + ((behind dashes d below).length + 1)) := by
  have block := h.block
  rw [← Nat.add_assoc] at above ⊢
  refine .of_content above ?_
  generalize behind dashes d below = v at block ends
  cases v using List.reverseRecOn with
  | nil => exact h.content
  | append_singleton front last =>
    rw [List.length_append, List.length_singleton, ← Nat.add_assoc, Nat.add_right_comm, block.last]
    rintro _ ⟨⟩
    exact ends last (by simp)

end Source

/-! ## Nodes whose comments can be told -/

/-- The items of an array are keyed by their positions. -/
def ItemsNumbered (r : Rose NodeData) : Prop :=
  r.label.type = .array → r.children.rootKeys NodeData.key = (List.range r.children.roots.length).map itemKey

/-- What is asked of a node to tell comments from its lines. -/
structure Tellable (dashes : Bool) (f : Forest NodeData) : Prop where
  scannable : AllScannable dashes f
  inked : f.Everywhere fun r => keyInk r.label.key ≠ '#'
  notes : f.Everywhere fun r => ∀ text ∈ r.label.comment, Text.IsNote text
  ownKeys : f.Everywhere fun r => r.label.key ≠ mergeKey
  items : f.Everywhere ItemsNumbered

namespace Tellable

variable {dashes : Bool} {d : NodeData} {below ss : Forest NodeData} (h : Tellable dashes (.cons d below ss))

include h

theorem inner : Tellable (d.type = .array) below where
  scannable := h.scannable.2.1
  inked := (Forest.everywhere_cons.1 h.inked).2.1
  notes := (Forest.everywhere_cons.1 h.notes).2.1
  ownKeys := (Forest.everywhere_cons.1 h.ownKeys).2.1
  items := (Forest.everywhere_cons.1 h.items).2.1

theorem siblings : Tellable dashes ss where
  scannable := h.scannable.2.2
  inked := (Forest.everywhere_cons.1 h.inked).2.2
  notes := (Forest.everywhere_cons.1 h.notes).2.2
  ownKeys := (Forest.everywhere_cons.1 h.ownKeys).2.2
  items := (Forest.everywhere_cons.1 h.items).2.2

theorem note : ∀ text ∈ d.comment, Text.IsNote text := (Forest.everywhere_cons.1 h.notes).1

theorem key : keyInk d.key ≠ '#' := (Forest.everywhere_cons.1 h.inked).1

theorem kinds_linesOf : kinds (linesOf dashes (.cons d below ss)) =
    kinds (commentLines d.comment) ++
      (leadKind dashes d.key :: (behind dashes d below ++ kinds (linesOf dashes ss))) := by
  rw [linesOf, kinds_append, kinds_append, kinds_ownLines h.scannable.1 h.scannable.2.1 h.key, List.append_assoc]
  rfl

/-- A forest begins with the comment of its first node, then that stands, then the others. -/
theorem begins {s : Source} {n : Nat} (begins : s.Begins n (kinds (linesOf dashes (.cons d below ss)))) :
    s.Shows n (kinds (commentLines d.comment)) ∧ s.Stands (n + (commentLines d.comment).length) dashes d below ∧
      s.Shows (n + (commentLines d.comment).length +
        (ownLines dashes d below.isEmpty (linesOf (d.type = .array) below)).length) (kinds (linesOf dashes ss)) := by
  rw [h.kinds_linesOf] at begins
  obtain ⟨comment, lead, rest⟩ := begins.comment h.note
  obtain ⟨block, others⟩ := Source.shows_append.1 rest
  refine ⟨comment, ⟨lead.imp id And.left, block⟩, ?_⟩
  rw [length_ownLines h.scannable.1 h.scannable.2.1 h.key, Nat.add_comm _ 1, ← Nat.add_assoc]
  exact others

theorem clear {s : Source} {line : Nat} {claimed : Claimed} (stands : s.Stands line dashes d below)
    (above : ∀ l ∈ claimed, l < line + (ownLines dashes d below.isEmpty (linesOf (d.type = .array) below)).length) :
    s.Clear claimed (line + (ownLines dashes d below.isEmpty (linesOf (d.type = .array) below)).length) := by
  rw [length_ownLines h.scannable.1 h.scannable.2.1 h.key] at above ⊢
  exact stands.clear (h.scannable.1.ends_behind h.scannable.2.1 (ends_linesOf h.scannable.2.1 h.inner.inked)) above

end Tellable

/-! ## Where a block begins -/

section Blocks

variable {dashes : Bool} {d : NodeData} {below : Forest NodeData}

theorem leadingComments_eq_zero_iff {f : Forest NodeData} (h : Tellable dashes f) :
    leadingComments f = 0 ↔ firstComment f = none := by
  cases f with
  | nil => exact iff_of_true rfl rfl
  | cons d below ss =>
    rw [leadingComments, length_commentLines h.note, List.length_eq_zero_iff, firstComment]
    cases d.comment with
    | none => exact iff_of_true rfl rfl
    | some text => exact iff_of_false (Text.splitAt_ne_nil '\n' text.toList) (Option.some_ne_none text)

theorem mergeLines_of_beginsWithDash (h : Scannable dashes d below.isEmpty) (dash : beginsWithDash d below) :
    (formOf d below.isEmpty).mergeLines = [] := by
  have shape := shape_formOf h.leaf
  generalize formOf d below.isEmpty = form at shape ⊢
  cases shape with
  | mapping type =>
    cases below with
    | nil => cases dash
    | cons first =>
      have none : d.aliases = [] := by
        simp only [beginsWithDash, type, Bool.and_eq_true] at dash
        simpa using dash.1
      rw [none]
      rfl
  | _ => rfl

theorem unmerged {leaf : Bool} (h : d.type.isScalar → leaf = true) (block : (formOf d leaf).isBottom = false)
    (merges : (formOf d leaf).mergeLines = []) : (decide (d.type = .array) || d.aliases.isEmpty) = true := by
  have shape := shape_formOf h
  generalize formOf d leaf = form at shape block merges
  cases shape with
  | mapping =>
    cases none : d.aliases with
    | nil => simp
    | cons a as =>
      obtain ⟨l, single, -⟩ := mergeLine_eq (show d.aliases ≠ [] by simp [none])
      rw [Form.mergeLines, single] at merges
      cases merges
  | sequence type => simp [type]
  | _ => cases block

/-- Whether the block of a node begins on the line of its dash: a dash without an anchor, and no comment first. -/
def sharesLine (dashes : Bool) (d : NodeData) (below : Forest NodeData) : Bool :=
  dashes && d.anchor.isNone && !((formOf d below.isEmpty).mergeLines.isEmpty && (firstComment below).isSome)

theorem inset_eq (h : Scannable dashes d below.isEmpty) (inner : Tellable (d.type = .array) below)
    (block : (formOf d below.isEmpty).isBottom = false) :
    Form.inset dashes d.anchor ((formOf d below.isEmpty).body (linesOf (d.type = .array) below)) =
      if sharesLine dashes d below then 0 else 1 := by
  obtain ⟨split, some, -⟩ := h.of_block inner.scannable block
  have sign : ((formOf d below.isEmpty).body (linesOf (d.type = .array) below)).head?.any (·.startsWith "#") =
      ((formOf d below.isEmpty).mergeLines.isEmpty && (firstComment below).isSome) := by
    rw [split] at some ⊢
    rcases mergeLines_cases (formOf d below.isEmpty) with none | ⟨l, single, ink, -⟩
    · rw [none] at some ⊢
      have filled : below ≠ .nil := by rintro rfl; exact some rfl
      obtain ⟨comments, l, rest, opening, length, -⟩ := emits_forest [] inner.scannable filled
      have first := leadingComments_eq_zero_iff inner
      rw [List.nil_append, opening.split, ← length] at *
      cases comments with
      | nil => simp [opening.ink.startsWith, first.1 rfl]
      | cons c comments =>
        have commented : firstComment below ≠ .none := fun none => by simpa using first.2 none
        simpa [(opening.comment c List.mem_cons_self).startsWith] using Option.isSome_iff_ne_none.2 commented
    · simp [single, ink.startsWith]
  rw [Form.inset, sign]
  rfl

/-- An item strays if its block begins with a dash on a line of its own. -/
theorem strays_eq (h : Scannable dashes d below.isEmpty) :
    strays d below = (beginsWithDash d below && !sharesLine true d below) := by
  cases dash : beginsWithDash d below with
  | false => rw [strays, dash, Bool.false_and, Bool.false_and]
  | true =>
    rw [strays, dash, sharesLine, mergeLines_of_beginsWithDash h dash]
    cases d.anchor <;> simp

theorem behind_eq (h : Scannable dashes d below.isEmpty) (inner : Tellable (d.type = .array) below)
    (block : (formOf d below.isEmpty).isBottom = false) :
    behind dashes d below =
      (kinds (formOf d below.isEmpty).mergeLines ++ kinds (linesOf (d.type = .array) below)).drop
        (if sharesLine dashes d below then 1 else 0) := by
  rw [behind, inset_eq h inner block, (h.of_block inner.scannable block).1, kinds_append]
  split <;> rfl

/-- The line on which what is below a node begins. -/
def childLine (dashes : Bool) (line : Nat) (d : NodeData) (below : Forest NodeData) : Nat :=
  blockLine dashes line d below + (formOf d below.isEmpty).mergeLines.length

theorem blockLine_eq (h : Scannable dashes d below.isEmpty) (inner : Tellable (d.type = .array) below)
    (block : (formOf d below.isEmpty).isBottom = false) (line : Nat) :
    blockLine dashes line d below = line + if sharesLine dashes d below then 0 else 1 := by
  rw [blockLine, inset_eq h inner block]

/-- The lines of a node end with those of what is below it. -/
theorem childLine_add_length (h : Scannable dashes d below.isEmpty) (inner : Tellable (d.type = .array) below)
    (key : keyInk d.key ≠ '#') (block : (formOf d below.isEmpty).isBottom = false) (line : Nat) :
    childLine dashes line d below + (linesOf (d.type = .array) below).length =
      line + (ownLines dashes d below.isEmpty (linesOf (d.type = .array) below)).length := by
  rw [length_ownLines h inner.scannable key, behind_eq h inner block, childLine, blockLine_eq h inner block]
  obtain ⟨split, some, -⟩ := h.of_block inner.scannable block
  have lines := List.length_pos_iff.2 some
  rw [split, List.length_append] at lines
  rw [List.length_drop, List.length_append, kinds, kinds, List.length_map, List.length_map]
  split <;> omega

theorem itemOf_block (line : Nat) : (itemOf dashes line d below).block = blockLine dashes line d below +
    if (formOf d below.isEmpty).mergeLines.isEmpty then leadingComments below else 0 := rfl

theorem isContent_head {f : Forest NodeData} (h : Tellable dashes f) (plain : firstComment f = none) :
    ∀ kind ∈ (kinds (linesOf dashes f)).head?, kind.IsContent := by
  cases f with
  | nil => exact nofun
  | cons d below ss =>
    have none : d.comment = none := plain
    rw [h.kinds_linesOf, none]
    rintro _ ⟨⟩
    exact isContent_leadKind dashes d.key

variable {s : Source} {line : Nat} {claimed : Claimed}

/-- What is claimed where the block of a node is entered: of an item that strays, the comment of the first node
of its block. -/
abbrev Enters (s : Source) (claimed : Claimed) (dashes : Bool) (line : Nat) (d : NodeData) (below : Forest NodeData) :
    Prop :=
  s.Clear claimed (if dashes && strays d below then (itemOf dashes line d below).block else line)

/-- What is claimed where a forest is entered, whose first comment may be taken. -/
abbrev Faces (s : Source) (claimed : Claimed) (taken : Bool) (line : Nat) (f : Forest NodeData) : Prop :=
  s.Clear claimed (if taken then line + leadingComments f else line)

/-- Where the block of a node begins: behind its dash, with what it merges below the line of the node, or with the
first of its children. -/
inductive BlockAt (s : Source) (dashes : Bool) (line : Nat) (d : NodeData) (below : Forest NodeData) : Prop
  | behindDash (starts : (itemOf dashes line d below).block = line) (stays : strays d below = false)
      (children : childLine dashes line d below = line ∨ childLine dashes line d below = line + 1)
  | merging (starts : (itemOf dashes line d below).block = line + 1) (stays : strays d below = false)
      (other : s.kind? (line + 1) = some .other) (children : childLine dashes line d below = line + 2)
  | below (starts : (itemOf dashes line d below).block = line + 1 + leadingComments below)
      (dash : dashes → strays d below = beginsWithDash d below) (children : childLine dashes line d below = line + 1)
      (merges : (formOf d below.isEmpty).mergeLines = [])
      (shows : s.Shows (line + 1) (kinds (linesOf (d.type = .array) below)))

/-- **A block on the line of its dash.** -/
theorem Source.Stands.blockAt_of_sharesLine (h : Scannable dashes d below.isEmpty)
    (inner : Tellable (d.type = .array) below) (block : (formOf d below.isEmpty).isBottom = false)
    (stands : s.Stands line dashes d below) (shares : sharesLine dashes d below = true) :
    BlockAt s dashes line d below ∧
      s.Begins (childLine dashes line d below) (kinds (linesOf (d.type = .array) below)) := by
  have shown := stands.block
  rw [behind_eq h inner block, if_pos shares] at shown
  have onDash : blockLine dashes line d below = line := by rw [blockLine_eq h inner block, if_pos shares, Nat.add_zero]
  obtain ⟨rfl, own⟩ : dashes = true ∧
      ((formOf d below.isEmpty).mergeLines.isEmpty && (firstComment below).isSome) = false := by
    rw [sharesLine, Bool.and_eq_true, Bool.and_eq_true, Bool.not_eq_true'] at shares
    exact ⟨shares.1.1, shares.2⟩
  have stays : strays d below = false := by rw [strays_eq h, shares, Bool.not_true, Bool.and_false]
  rw [childLine, onDash]
  rcases mergeLines_cases (formOf d below.isEmpty) with none | ⟨l, single, -, -⟩
  · rw [none] at shown own ⊢
    have plain : firstComment below = .none := by simpa using own
    have starts : (itemOf true line d below).block = line := by
      rw [itemOf_block, onDash, none, (leadingComments_eq_zero_iff inner).2 plain]
      rfl
    refine ⟨.behindDash starts stays (.inl (by rw [childLine, onDash, none]; rfl)), ?_⟩
    -- The dash is all that shows of the first line of the block.
    have heads := isContent_head inner plain
    change s.Shows (line + 1) ((kinds (linesOf (d.type = .array) below)).drop 1) at shown
    generalize kinds (linesOf (d.type = .array) below) = v at shown heads
    cases v with
    | nil => trivial
    | cons kind rest => exact ⟨.inr ⟨stands.dash, heads kind rfl⟩, shown⟩
  · rw [single] at shown ⊢
    have starts : (itemOf true line d below).block = line := by
      rw [itemOf_block, onDash, single]
      rfl
    exact ⟨.behindDash starts stays (.inr (by rw [childLine, onDash, single]; rfl)), Source.Shows.begins shown⟩

/-- **A block below the line of its node.** -/
theorem Source.Stands.blockAt_of_apart (h : Scannable dashes d below.isEmpty)
    (inner : Tellable (d.type = .array) below) (block : (formOf d below.isEmpty).isBottom = false)
    (stands : s.Stands line dashes d below) (apart : sharesLine dashes d below = false) :
    BlockAt s dashes line d below ∧
      s.Begins (childLine dashes line d below) (kinds (linesOf (d.type = .array) below)) := by
  have shown := stands.block
  rw [behind_eq h inner block, apart] at shown
  obtain ⟨merge, rest⟩ := Source.shows_append.1 shown
  rw [kinds, List.length_map] at rest
  have next : blockLine dashes line d below = line + 1 := by rw [blockLine_eq h inner block, apart]; rfl
  refine ⟨?_, by rw [childLine, next]; exact rest.begins⟩
  rcases mergeLines_cases (formOf d below.isEmpty) with none | ⟨l, single, -, other⟩
  · rw [none] at rest
    have starts : (itemOf dashes line d below).block = line + 1 + leadingComments below := by
      rw [itemOf_block, next, none]
      rfl
    refine .below starts (fun dash => ?_) (by rw [childLine, next, none]; rfl) none rest
    rw [strays_eq h, ← dash, apart, Bool.not_false, Bool.and_true]
  · rw [single] at merge
    have starts : (itemOf dashes line d below).block = line + 1 := by
      rw [itemOf_block, next, single]
      rfl
    have stays : strays d below = false := Bool.eq_false_iff.2 fun stray => by
      rw [strays, Bool.and_eq_true] at stray
      rw [mergeLines_of_beginsWithDash h stray.1] at single
      cases single
    exact .merging starts stays (merge.1.trans (congrArg some other)) (by rw [childLine, next, single]; rfl)

/-- **The block of a node.** -/
theorem Source.Stands.blockAt (h : Scannable dashes d below.isEmpty) (inner : Tellable (d.type = .array) below)
    (block : (formOf d below.isEmpty).isBottom = false) (stands : s.Stands line dashes d below) :
    BlockAt s dashes line d below ∧
      s.Begins (childLine dashes line d below) (kinds (linesOf (d.type = .array) below)) := by
  cases shares : sharesLine dashes d below with
  | true => exact stands.blockAt_of_sharesLine h inner block shares
  | false => exact stands.blockAt_of_apart h inner block shares

theorem above_of_faces {taken : Bool} {f : Forest NodeData} (faces : Faces s claimed taken line f) :
    ∀ l ∈ claimed, l < line + leadingComments f := by
  cases taken with
  | true => exact faces.above
  | false => exact fun l hl => Nat.lt_add_right _ (faces.above l hl)

/-- The comment of a node whose lines are entered. -/
theorem commentAbove_of_faces (plain : s.blocks = []) {taken : Bool} {ss : Forest NodeData}
    (note : ∀ text ∈ d.comment, Text.IsNote text) (shows : s.Shows line (kinds (commentLines d.comment)))
    (faces : Faces s claimed taken line (.cons d below ss)) :
    ∃ claimed', s.commentAbove (line + (commentLines d.comment).length) claimed =
        (if taken then none else d.comment, claimed') ∧
      s.Clear claimed' (line + (commentLines d.comment).length) := by
  cases taken with
  | true => exact ⟨claimed, faces.commentAbove, faces⟩
  | false => exact ⟨_, faces.commentAbove_shown plain note shows⟩

theorem line_document (it : Item) (H : History) (docs : List (Document × Document)) :
    (it.document H docs).line = if it.form.isBottom then it.line else it.block := by
  unfold Item.document
  cases it.form <;> rfl

/-- The comment of an item with a block: that above its dash, or if it strays that of the first node of its block. -/
theorem Source.Stands.itemComment_block (plain : s.blocks = []) (h : Scannable true d below.isEmpty)
    (inner : Tellable (d.type = .array) below) (block : (formOf d below.isEmpty).isBottom = false)
    (stands : s.Stands line true d below) (above : ∀ l ∈ claimed, l < line) {comment : Option String}
    {claimed' : Claimed} (own : s.commentAbove line claimed = (comment, claimed')) (clear : s.Clear claimed' line) :
    ∃ claimed'', s.itemComment (itemOf true line d below).block claimed =
        (if strays d below then firstComment below else comment, claimed'') ∧
      Enters s claimed'' true line d below := by
  unfold Enters
  rw [Bool.true_and]
  cases (stands.blockAt h inner block).1 with
  | behindDash starts stays =>
    rw [starts, stays, Source.itemComment_of_dash stands.dash]
    exact ⟨claimed', own, clear⟩
  | merging starts stays other =>
    rw [starts, stays]
    have past : s.itemComment (line + 1) claimed = s.commentAbove line claimed :=
      Source.itemComment_bare stands.dash (by rw [other]; nofun)
    exact ⟨claimed', past.trans own, clear⟩
  | below starts dash children merges shows =>
    rw [dash rfl, starts]
    cases below with
    | nil =>
      obtain ⟨split, some, -⟩ := h.of_block inner.scannable block
      rw [split, merges] at some
      exact absurd rfl some
    | cons first b ss =>
      rw [inner.kinds_linesOf, Source.shows_append] at shows
      obtain ⟨comments, lead, -⟩ := shows
      rw [kinds, List.length_map] at lead
      rw [beginsWithDash, unmerged h.leaf block merges, Bool.true_and, leadingComments]
      by_cases begins : leadKind (d.type = .array) first.key = .dash
      -- The line of the block is taken for the line of the item, and right above it is the first node's comment.
      · rw [begins] at lead ⊢
        have fresh : s.Clear claimed (line + 1) :=
          .of_content (fun l hl => Nat.lt_succ_of_lt (above l hl)) stands.content
        rw [Source.itemComment_of_dash lead]
        exact ⟨_, fresh.commentAbove_shown plain inner.note comments⟩
      -- Past that comment the search comes to the dash.
      · rw [Source.itemComment_below stands.dash inner.note comments
          (by rw [lead]; exact fun same => begins (Option.some.inj same))]
        simp only [begins, decide_false, Bool.false_eq_true, if_false]
        exact ⟨claimed', own, clear⟩

/-- **The comment of an item.** -/
theorem Source.Stands.itemComment (plain : s.blocks = []) (h : Scannable true d below.isEmpty)
    (inner : Tellable (d.type = .array) below) (stands : s.Stands line true d below)
    (above : ∀ l ∈ claimed, l < line) {comment : Option String} {claimed' : Claimed}
    (own : s.commentAbove line claimed = (comment, claimed')) (clear : s.Clear claimed' line) (H : History)
    (docs : List (Document × Document)) :
    ∃ claimed'', s.itemComment ((itemOf true line d below).document H docs).line claimed =
        (if strays d below then firstComment below else comment, claimed'') ∧
      Enters s claimed'' true line d below := by
  rw [line_document, itemOf_form, itemOf_line]
  cases block : (formOf d below.isEmpty).isBottom with
  | true =>
    obtain rfl := (h.of_bottom block []).1
    rw [if_pos rfl, Source.itemComment_of_dash stands.dash]
    exact ⟨claimed', own, clear⟩
  | false =>
    rw [if_neg Bool.false_ne_true]
    exact stands.itemComment_block plain h inner block above own clear

/-- What is below a node is entered with its block. -/
theorem BlockAt.faces (starts : BlockAt s dashes line d below) (stands : s.Stands line dashes d below)
    (enters : Enters s claimed dashes line d below) :
    Faces s claimed (dashes && strays d below) (childLine dashes line d below) below := by
  unfold Enters at enters
  unfold Faces
  cases starts with
  | behindDash starts stays children =>
    rw [stays, Bool.and_false, if_neg Bool.false_ne_true] at enters ⊢
    rcases children with same | next
    · rwa [same]
    · rw [next]
      exact .of_content (fun l hl => Nat.lt_succ_of_lt (enters.above l hl)) stands.content
  | merging starts stays other children =>
    rw [stays, Bool.and_false, if_neg Bool.false_ne_true] at enters ⊢
    rw [children]
    refine .of_content (fun l hl => Nat.lt_add_right 2 (enters.above l hl)) ?_
    rw [other]
    rintro _ ⟨⟩
    exact LineKind.isContent_other
  | below starts dash children =>
    rw [starts] at enters
    rw [children]
    split at enters
    · rename_i stray
      rw [if_pos stray]
      exact enters
    · rename_i stays
      rw [if_neg stays]
      exact .of_content (fun l hl => Nat.lt_succ_of_lt (enters.above l hl)) stands.content

end Blocks

/-! ## What is read -/

section Reading

variable {s : Source} {H H' : History} {line : Nat} {claimed : Claimed} {merged : List String}

/-- The merge key reads no comment. -/
theorem yieldsFrom_merged (H : History) (line : Nat) (merged : List String) {parent : String}
    {es : List (Document × Document)} {Q : Forest NodeData → Claimed → Prop}
    (h : YieldsFrom claimed (entryDrafts s parent [] es) fun r => Q r.2) :
    YieldsFrom claimed (entryDrafts s parent [] (mergeEntry H line merged ++ es)) fun r => Q r.2 := by
  have one {value : Document} : YieldsFrom claimed
      (entryDrafts s parent [] ((.scalar line none "<<" true, value) :: es)) fun r => Q r.2 := by
    rw [entryDrafts, if_pos (by rfl)]
    exact .lift fun names _ => h.bind fun r claimed' hr => .pure hr
  rcases merged with - | ⟨a, - | ⟨b, names⟩⟩
  · exact h
  · exact one
  · exact one

/-- What is read has these comments, and what is claimed then is above a line. -/
def Finds (f : Forest (String × Option String)) (bound : Nat) (read : Forest NodeData) (claimed : Claimed) : Prop :=
  read.map commentOf = f ∧ ∀ l ∈ claimed, l < bound

/-- What reading the entries of a mapping finds. -/
def FindsEntries (s : Source) (f : Forest NodeData) : Prop :=
  ∀ (H : History) (parent : String) (seen : List String) (line : Nat) (claimed : Claimed) (taken : Bool),
    s.Begins line (kinds (linesOf false f)) → Faces s claimed taken line f →
    YieldsFrom claimed (entryDrafts s parent seen (documents H (items false line f))) fun r =>
      Finds (found false taken f) (line + (linesOf false f).length) r.2

/-- What reading the items of a sequence finds, which are keyed by their positions. -/
def FindsItems (s : Source) (f : Forest NodeData) : Prop :=
  ∀ (H : History) (position line : Nat) (claimed : Claimed) (taken : Bool),
    f.rootKeys NodeData.key = (List.range' position f.roots.length).map itemKey →
    s.Begins line (kinds (linesOf true f)) → Faces s claimed taken line f →
    YieldsFrom claimed (itemDrafts s position ((documents H (items true line f)).map (·.2)))
      (Finds (found true taken f) (line + (linesOf true f).length))

variable {dashes : Bool} {d : NodeData} {below : Forest NodeData}

/-- A node with a value on its line. -/
theorem finds_bottom (h : Scannable dashes d below.isEmpty) (bottom : (formOf d below.isEmpty).isBottom = true)
    (enters : Enters s claimed dashes line d below) (name : String) (docs : List (Document × Document)) :
    YieldsFrom claimed (toDraft s name ((itemOf dashes line d below).document H docs)) fun draft claimed' =>
      draft.label.key = name ∧ Finds (found (d.type = .array) (dashes && strays d below) below)
        (line + (ownLines dashes d below.isEmpty (linesOf (d.type = .array) below)).length) draft.children
        claimed' := by
  obtain ⟨rfl, -, text, written⟩ := h.of_bottom bottom (linesOf (d.type = .array) below)
  have clear : s.Clear claimed line := by
    simpa [Enters, strays, beginsWithDash] using enters
  have above : ∀ l ∈ claimed, l < line +
      (ownLines dashes d (Forest.nil : Forest NodeData).isEmpty (linesOf (d.type = .array) .nil)).length := by
    rw [ownLines_inline written]
    exact fun l hl => Nat.lt_succ_of_lt (clear.above l hl)
  rw [Item.document, itemOf_form]
  cases form : formOf d (Forest.nil : Forest NodeData).isEmpty with
  | aliased | emptyMapping | emptySequence => exact .pure ⟨rfl, rfl, above⟩
  | scalar value =>
    refine .pure ⟨?_, rfl, above⟩
    dsimp only
    split <;> rfl
  | mapping | sequence => rw [form] at bottom; cases bottom

/-- **A node.** What is below it is found as its block is entered. -/
theorem finds_toDraft (H H' : History) (h : Scannable dashes d below.isEmpty)
    (inner : Tellable (d.type = .array) below) (key : keyInk d.key ≠ '#') (numbered : ItemsNumbered ⟨d, below⟩)
    (entries : Tellable false below → FindsEntries s below) (its : Tellable true below → FindsItems s below)
    (stands : s.Stands line dashes d below) (enters : Enters s claimed dashes line d below) (name : String) :
    YieldsFrom claimed (toDraft s name ((itemOf dashes line d below).document H
      (documents H' (items (d.type = .array) (childLine dashes line d below) below)))) fun draft claimed' =>
        draft.label.key = name ∧ Finds (found (d.type = .array) (dashes && strays d below) below)
          (line + (ownLines dashes d below.isEmpty (linesOf (d.type = .array) below)).length) draft.children
          claimed' := by
  cases block : (formOf d below.isEmpty).isBottom with
  | true => exact finds_bottom h block enters name _
  | false =>
    obtain ⟨starts, begins⟩ := stands.blockAt h inner block
    have faces := starts.faces stands enters
    have shape := shape_formOf h.leaf
    rw [← childLine_add_length h inner key block, Item.document, itemOf_form]
    cases form : formOf d below.isEmpty with
    | mapping merged =>
      rw [form] at shape
      cases shape with
      | mapping type =>
        have mapping : decide (d.type = .array) = false := by rw [type]; rfl
        have ownKeys := ownKeys_items inner.ownKeys false (childLine dashes line d below)
        rw [mapping] at inner begins ⊢
        dsimp only
        rw [toDraft]
        have read := entries inner H' name [] _ claimed _ begins faces
        refine (yieldsFrom_merged H _ _ read).bind fun r claimed' hr => ?_
        dsimp only
        rw [inlineDrafts_written _ ownKeys, pure_bind]
        exact .pure ⟨rfl, hr⟩
    | sequence =>
      rw [form] at shape
      cases shape with
      | sequence type =>
        have array : decide (d.type = .array) = true := by rw [type]; rfl
        rw [array] at inner begins ⊢
        dsimp only
        rw [toDraft]
        refine (its inner H' 0 _ claimed _ ?_ begins faces).bind fun children claimed' hc => .pure ⟨rfl, hc⟩
        rw [numbered type, List.range_eq_range']
    | _ => rw [form] at block; cases block

variable {ss : Forest NodeData}

/-- **An entry**, and those behind it. -/
theorem findsEntries_cons (plain : s.blocks = []) (h : Tellable false (.cons d below ss))
    (entries : Tellable false below → FindsEntries s below) (its : Tellable true below → FindsItems s below)
    (rest : FindsEntries s ss) : FindsEntries s (.cons d below ss) := by
  intro H parent seen line claimed taken begins faces
  obtain ⟨comment, stands, others⟩ := h.begins begins
  obtain ⟨claimed₁, above, clear⟩ := commentAbove_of_faces plain h.note comment faces
  rw [items, documents, entryDrafts, isMergeKey_keyDocument (Forest.everywhere_cons.1 h.ownKeys).1,
    if_neg Bool.false_ne_true]
  refine .lift fun name text => .check (.bind (.modifyGet (Q := fun comment claimed' =>
    comment = (if taken then none else d.comment) ∧ claimed' = claimed₁) ?_) fun comment claimed' same => ?_)
  · exact ⟨congrArg Prod.fst above, congrArg Prod.snd above⟩
  obtain ⟨rfl, rfl⟩ := same
  cases text
  have enters : Enters s claimed' false (line + (commentLines d.comment).length) d below := clear
  refine (finds_toDraft _ _ h.scannable.1 h.inner h.key (Forest.everywhere_cons.1 h.items).1 entries its stands
    enters _).bind fun draft claimed₂ hd => ?_
  have next := h.clear stands hd.2.2
  refine (rest _ parent _ _ claimed₂ false others.begins next).bind fun r claimed₃ hr => .pure ⟨?_, ?_⟩
  · rw [Forest.map, found, hr.1, hd.2.1, commentOf, hd.1]
    rfl
  · rw [linesOf, List.length_append, List.length_append, ← Nat.add_assoc, ← Nat.add_assoc]
    exact hr.2

/-- **An item**, and those behind it. -/
theorem findsItems_cons (plain : s.blocks = []) (h : Tellable true (.cons d below ss))
    (entries : Tellable false below → FindsEntries s below) (its : Tellable true below → FindsItems s below)
    (rest : FindsItems s ss) : FindsItems s (.cons d below ss) := by
  intro H position line claimed taken numbered begins faces
  obtain ⟨comment, stands, others⟩ := h.begins begins
  obtain ⟨claimed₁, above, clear⟩ := commentAbove_of_faces plain h.note comment faces
  rw [Forest.rootKeys_cons, Forest.roots, List.length_cons, List.range'_succ, List.map_cons, List.cons.injEq]
    at numbered
  let it := itemOf true (line + (commentLines d.comment).length) d below
  obtain ⟨claimed₂, given, enters⟩ := stands.itemComment plain h.scannable.1 h.inner (above_of_faces faces) above clear
    (it.declare H) (documents (it.declare H)
      (items (d.type = .array) (childLine true (line + (commentLines d.comment).length) d below) below))
  rw [items, documents, List.map_cons, itemDrafts]
  refine .bind (.modifyGet (Q := fun comment claimed' =>
    comment = (if strays d below then firstComment below else if taken then none else d.comment) ∧
      claimed' = claimed₂) ?_) fun comment claimed' same => ?_
  · exact ⟨congrArg Prod.fst given, congrArg Prod.snd given⟩
  obtain ⟨rfl, rfl⟩ := same
  refine (finds_toDraft _ _ h.scannable.1 h.inner h.key (Forest.everywhere_cons.1 h.items).1 entries its stands
    enters "").bind fun draft claimed₃ hd => ?_
  have next := h.clear stands hd.2.2
  refine (rest _ (position + 1) _ claimed₃ false numbered.2 others.begins next).bind
    fun rest claimed₄ hr => .pure ⟨?_, ?_⟩
  · rw [Forest.map, found, hr.1, hd.2.1, commentOf, numbered.1]
    rfl
  · rw [linesOf, List.length_append, List.length_append, ← Nat.add_assoc, ← Nat.add_assoc]
    exact hr.2

/-- **Entries and items.** By induction on the forest: each node is entered behind the one before, which ends
with content. -/
theorem finds_entries_and_items (plain : s.blocks = []) (f : Forest NodeData) :
    (Tellable false f → FindsEntries s f) ∧ (Tellable true f → FindsItems s f) := by
  induction f with
  | nil =>
    exact ⟨fun _ H parent seen line claimed taken _ faces => .pure ⟨rfl, above_of_faces faces⟩,
      fun _ H position line claimed taken _ _ faces => .pure ⟨rfl, above_of_faces faces⟩⟩
  | cons d below ss ihc ihs =>
    exact ⟨fun h => findsEntries_cons plain h ihc.1 ihc.2 (ihs.1 h.siblings),
      fun h => findsItems_cons plain h ihc.1 ihc.2 (ihs.2 h.siblings)⟩

end Reading

end LayeredConfig.Yaml
