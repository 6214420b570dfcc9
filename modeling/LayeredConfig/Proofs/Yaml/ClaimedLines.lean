import LayeredConfig.Proofs.Yaml.Comments
import Mathlib.Data.List.Perm.Subperm

/-!
# The lines of comments

Which lines the comments of a configuration were taken from is said beside it: a forest of the same shape with
the lines of each node (`Noted`). A search claims a run of comment lines that nobody has claimed
(`Source.Takes`), and along a conversion what is claimed is claimed once (`Claims`). So no line is in the
comments of two nodes (`comment_lines_of_load`).

What is claimed is a line that looks like a comment, in no block scalar as far as such lines are known: they
are told by the first line with content below the line on which the text of the scalar begins, so a line that
is indented less than this one is taken for a comment (`scalar_line_in_comment`).
-/

namespace LayeredConfig.Yaml

open Document

namespace Source

variable {s : Source} {claimed claimed' : Claimed} {line : Nat}

/-- The text of a line, as it stands in a comment. -/
def body (s : Source) (line : Nat) : List Char := ((s.lines[line]?).bind commentText?).getD []

/-- The comment that lines make. -/
def comment (s : Source) : List Nat → Option String
  | [] => none
  | lines => some ("\n".intercalate (lines.map fun line => String.ofList (s.body line)))

/-- Lines that may make a comment: one right below the other, each a comment line by its looks. Where one is among the
lines of a block scalar, it is indented less than the content which this is known by. -/
structure AreRemarks (s : Source) (lines : List Nat) : Prop where
  run : ∃ first, lines = List.range' first lines.length
  comment : ∀ line ∈ lines, ∃ body, s.kind? line = some (.comment body)
  outside : ∀ line ∈ lines, ∀ r ∈ s.blocks, r.first ≤ line → line < r.stop →
    ∀ text ∈ s.lines[line]?, indentOf text < s.blockIndent r

/-- A comment was made of lines that nobody had claimed, and they are claimed now. -/
def Takes (s : Source) (claimed : Claimed) (comment : Option String) (claimed' : Claimed) : Prop :=
  ∃ lines, s.AreRemarks lines ∧ lines.Disjoint claimed ∧ comment = s.comment lines ∧ claimed' = lines ++ claimed

theorem areRemarks_nil : s.AreRemarks [] := ⟨⟨0, rfl⟩, List.forall_mem_nil _, List.forall_mem_nil _⟩

theorem AreRemarks.nodup {lines : List Nat} (h : s.AreRemarks lines) : lines.Nodup := by
  obtain ⟨first, same⟩ := h.run
  rw [same]
  exact List.nodup_range'

theorem takes_none : s.Takes claimed none claimed :=
  ⟨[], areRemarks_nil, List.disjoint_nil_left _, rfl, rfl⟩

/-- A line that looks like a comment. -/
theorem kind?_of_commentText? {body : List Char} (h : (s.lines[line]?).bind commentText? = some body) :
    s.kind? line = some (.comment body) := by
  obtain ⟨text, at_line, comment⟩ := Option.bind_eq_some_iff.1 h
  rw [kind?, at_line, Option.map_some, LineKind.ofLine, comment]

/-- The comment lines above a line are a run that ends right above it. By induction on the line: the search goes
up from it. -/
theorem commentLines_run (s : Source) (claimed : Claimed) (line : Nat) :
    ∃ first count, first + count = line ∧
      s.commentLines claimed line = (List.range' first count).map fun l => (l, s.body l) := by
  induction line with
  | zero => exact ⟨0, 0, rfl, rfl⟩
  | succ line ih =>
    obtain ⟨first, count, ends, above⟩ := ih
    rw [commentLines]
    split
    · exact ⟨line + 1, 0, rfl, rfl⟩
    · cases text : (s.lines[line]?).bind commentText? with
      | none => exact ⟨line + 1, 0, rfl, rfl⟩
      | some body =>
        refine ⟨first, count + 1, by rw [← Nat.add_assoc, ends], ?_⟩
        have here : s.body line = body := by rw [Source.body, text, Option.getD_some]
        rw [above, List.range'_1_concat, List.map_append, List.map_singleton, ends, here]

theorem isBlockContent_eq_false_iff : s.isBlockContent line = false ↔
    ∀ r ∈ s.blocks, r.first ≤ line → line < r.stop → ∀ text ∈ s.lines[line]?, indentOf text < s.blockIndent r := by
  rw [isBlockContent, List.any_eq_false]
  refine forall₂_congr fun r _ => ?_
  cases s.lines[line]? <;> simp

/-- What a search finds is left to claim, not taken for content of a block scalar, and looks like a comment. -/
theorem mem_commentLines {found : Nat × List Char} (h : found ∈ s.commentLines claimed line) :
    found.1 ∉ claimed ∧ s.isBlockContent found.1 = false ∧ ∃ body, s.kind? found.1 = some (.comment body) := by
  induction line with
  | zero => cases h
  | succ line ih =>
    rw [commentLines] at h
    split at h
    · cases h
    · rename_i free
      rw [Bool.or_eq_true, not_or, Bool.not_eq_true, Bool.not_eq_true, List.contains_eq_mem,
        decide_eq_false_iff_not] at free
      split at h
      · rename_i body text
        rcases List.mem_append.1 h with h | h
        · exact ih h
        · obtain rfl := List.mem_singleton.1 h
          exact ⟨free.1, free.2, body, kind?_of_commentText? text⟩
      · cases h

theorem takes_commentAbove (s : Source) (line : Nat) (claimed : Claimed) :
    s.Takes claimed (s.commentAbove line claimed).1 (s.commentAbove line claimed).2 := by
  obtain ⟨first, count, -, found⟩ := s.commentLines_run claimed line
  let lines := List.range' first count
  have each (l : Nat) (hl : l ∈ lines) :=
    mem_commentLines (found ▸ List.mem_map_of_mem hl : (l, s.body l) ∈ s.commentLines claimed line)
  refine ⟨lines, ⟨⟨first, by rw [List.length_range']⟩, fun l hl => (each l hl).2.2,
      fun l hl => isBlockContent_eq_false_iff.1 (each l hl).2.1⟩,
    fun l hl => (each l hl).1, ?_⟩
  rw [commentAbove, found]
  cases count with
  | zero => exact ⟨rfl, rfl⟩
  | succ count => simp [lines, List.range'_succ, Source.comment, Function.comp_def]

theorem takes_itemComment (s : Source) (line : Nat) (claimed : Claimed) :
    s.Takes claimed (s.itemComment line claimed).1 (s.itemComment line claimed).2 := by
  unfold itemComment
  split
  · exact s.takes_commentAbove line claimed
  · split
    · rename_i dash _
      exact s.takes_commentAbove dash claimed
    · exact takes_none

end Source

/-! ## Claims -/

/-- Lines that were claimed in between, each once. -/
structure Claims (claimed : Claimed) (lines : List Nat) (claimed' : Claimed) : Prop where
  once : lines.Nodup
  before : lines.Disjoint claimed
  after : lines ⊆ claimed'
  kept : claimed ⊆ claimed'
  distinct : claimed.Nodup → claimed'.Nodup

namespace Claims

variable {claimed claimed₁ claimed₂ : Claimed} {lines lines' : List Nat}

theorem nil : Claims claimed [] claimed :=
  ⟨List.nodup_nil, List.disjoint_nil_left _, List.nil_subset _, List.Subset.refl _, id⟩

theorem of_disjoint (once : lines.Nodup) (new : lines.Disjoint claimed) : Claims claimed lines (lines ++ claimed) :=
  ⟨once, new, List.subset_append_left _ _, List.subset_append_right _ _,
    fun distinct => List.nodup_append'.2 ⟨once, distinct, new⟩⟩

/-- What was claimed first is not claimed again. -/
theorem append (h : Claims claimed lines claimed₁) (h' : Claims claimed₁ lines' claimed₂) :
    Claims claimed (lines ++ lines') claimed₂ where
  once := List.nodup_append'.2 ⟨h.once, h'.once, fun _ here there => h'.before there (h.after here)⟩
  before := List.disjoint_append_left.2 ⟨h.before, fun _ here there => h'.before here (h.kept there)⟩
  after := List.append_subset.2 ⟨List.Subset.trans h.after h'.kept, h'.after⟩
  kept := List.Subset.trans h.kept h'.kept
  distinct := h'.distinct ∘ h.distinct

/-- Some of the lines, in any order. -/
theorem subperm (h : Claims claimed lines claimed₁) (some : lines'.Subperm lines) : Claims claimed lines' claimed₁ where
  once := by
    obtain ⟨l, same, part⟩ := some
    exact same.nodup_iff.1 (h.once.sublist part)
  before := fun _ here => h.before (some.subset here)
  after := List.Subset.trans some.subset h.after
  kept := h.kept
  distinct := h.distinct

end Claims

/-! ## Lines beside a forest -/

/-- A key with the lines of its comment. -/
abbrev KeyLines := String × List Nat

/-- All lines, node by node. -/
def allLines (f : Forest KeyLines) : List Nat := f.preorder.flatMap (·.2)

theorem allLines_cons (n : KeyLines) (below rest : Forest KeyLines) :
    allLines (.cons n below rest) = n.2 ++ (allLines below ++ allLines rest) := by
  rw [allLines, Forest.preorder, List.flatMap_cons, List.flatMap_append]
  rfl

theorem allLines_append (f g : Forest KeyLines) : allLines (f ++ g) = allLines f ++ allLines g := by
  rw [allLines, Forest.preorder_append, List.flatMap_append]
  rfl

/-- What is added to a forest brings its lines, or some of them. -/
theorem allLines_addMissing (own f : Forest KeyLines) :
    (allLines (own.addMissing (·.1) f)).Sublist (allLines own ++ allLines f) := by
  induction f generalizing own with
  | nil => exact List.sublist_append_left _ _
  | cons n below rest _ ih =>
    rw [Forest.addMissing, allLines_cons]
    refine (ih _).trans ?_
    split
    · exact (List.sublist_append_of_sublist_right (List.sublist_append_right _ _)).append_left _
    · simp [allLines, Forest.preorder]

/-- The key and the comment of a node whose comment was taken from lines. -/
def Source.told (s : Source) (n : KeyLines) : String × Option String := (n.1, s.comment n.2)

/-- The comments of a forest were taken from lines that were claimed in between, those of each node from a run
of its own. -/
def Noted (s : Source) (claimed : Claimed) (f : Forest NodeData) (claimed' : Claimed) : Prop :=
  ∃ noted : Forest KeyLines, f.map commentOf = noted.map s.told ∧ noted.Everywhere (fun r => s.AreRemarks r.label.2) ∧
    Claims claimed (allLines noted) claimed'

namespace Noted

variable {s : Source} {claimed claimed₁ claimed₂ claimed₃ : Claimed} {f g : Forest NodeData}

theorem nil : Noted s claimed .nil claimed := ⟨.nil, rfl, Forest.everywhere_nil, .nil⟩

/-- A node whose comment is taken before what is below it, and what follows. -/
theorem cons {d : NodeData} (here : s.Takes claimed d.comment claimed₁) (below : Noted s claimed₁ f claimed₂)
    (rest : Noted s claimed₂ g claimed₃) : Noted s claimed (.cons d f g) claimed₃ := by
  obtain ⟨lines, remarks, new, comment, rfl⟩ := here
  obtain ⟨inner, same, areRemarks, claims⟩ := below
  obtain ⟨outer, same', areRemarks', claims'⟩ := rest
  refine ⟨.cons (d.key, lines) inner outer, ?_, ?_, ?_⟩
  · rw [Forest.map, Forest.map, same, same', commentOf, comment]
    rfl
  · exact Forest.everywhere_cons.2 ⟨remarks, areRemarks, areRemarks'⟩
  · rw [allLines_cons]
    exact (Claims.of_disjoint remarks.nodup new).append (claims.append claims')

/-- Trees that are added where their keys are missing. -/
theorem addMissing (hf : Noted s claimed f claimed₁) (hg : Noted s claimed₁ g claimed₂) :
    Noted s claimed (f.addMissing (·.key) g) claimed₂ := by
  obtain ⟨own, same, remarks, claims⟩ := hf
  obtain ⟨more, same', remarks', claims'⟩ := hg
  refine ⟨own.addMissing (·.1) more, ?_, remarks.addMissing remarks',
    (claims.append claims').subperm (allLines_addMissing own more).subperm⟩
  have drafts : (f.map commentOf).addMissing (·.1) (g.map commentOf) = (f.addMissing (·.key) g).map commentOf :=
    Forest.addMissing_map (fun _ _ => Iff.rfl) f g
  have lines : (own.map s.told).addMissing (·.1) (more.map s.told) = (own.addMissing (·.1) more).map s.told :=
    Forest.addMissing_map (fun _ _ => Iff.rfl) own more
  rw [← drafts, ← lines, same, same']

end Noted

/-! ## Conversions -/

mutual

/-- **Nodes.** What a conversion puts below a node takes its comments from lines that it claims. -/
theorem notes_draft (s : Source) : ∀ (d : Document) (key : String) (claimed : Claimed),
    YieldsFrom claimed (toDraft s key d) fun draft => Noted s claimed draft.children
  | .scalar line anchor text plain, key, claimed => by
    rw [toDraft]
    exact .pure .nil
  | .alias line name type, key, claimed => by
    rw [toDraft]
    exact .pure .nil
  | .mapping line anchor entries, key, claimed => by
    rw [toDraft]
    refine .bind (notes_entries s entries key [] claimed) fun r claimed₁ own => ?_
    exact .bind (notes_inline s entries own) fun children claimed₂ all => .pure all
  | .sequence line anchor items, key, claimed => by
    rw [toDraft]
    exact .bind (notes_items s items 0 claimed) fun children claimed₁ all => .pure all

theorem notes_items (s : Source) : ∀ (items : List Document) (position : Nat) (claimed : Claimed),
    YieldsFrom claimed (itemDrafts s position items) fun f => Noted s claimed f
  | [], position, claimed => by
    rw [itemDrafts]
    exact .pure .nil
  | item :: items, position, claimed => by
    rw [itemDrafts]
    refine .bind (.modifyGet (s.takes_itemComment item.line claimed)) fun comment claimed₁ here => ?_
    refine .bind (notes_draft s item "" claimed₁) fun draft claimed₂ below => ?_
    exact .bind (notes_items s items (position + 1) claimed₂) fun rest claimed₃ others => .pure (.cons here below others)

theorem notes_entries (s : Source) : ∀ (entries : List (Document × Document)) (parent : String)
    (seen : List String) (claimed : Claimed),
    YieldsFrom claimed (entryDrafts s parent seen entries) fun r => Noted s claimed r.2
  | [], parent, seen, claimed => by
    rw [entryDrafts]
    exact .pure .nil
  | (key, value) :: entries, parent, seen, claimed => by
    rw [entryDrafts]
    split
    · refine .lift fun names _ => ?_
      exact .bind (notes_entries s entries parent seen claimed) fun r claimed₁ all => .pure all
    · refine .lift fun name _ => .check ?_
      refine .bind (.modifyGet (s.takes_commentAbove key.line claimed)) fun comment claimed₁ here => ?_
      refine .bind (notes_draft s value name claimed₁) fun draft claimed₂ below => ?_
      exact .bind (notes_entries s entries parent (name :: seen) claimed₂) fun r claimed₃ others =>
        .pure (.cons here below others)

theorem notes_inline (s : Source) {claimed : Claimed} : ∀ (entries : List (Document × Document))
    {own : Forest NodeData} {claimed₁ : Claimed}, Noted s claimed own claimed₁ →
    YieldsFrom claimed₁ (inlineDrafts s own entries) fun f => Noted s claimed f
  | [], own, claimed₁, noted => by
    rw [inlineDrafts]
    exact .pure noted
  | (key, .mapping line anchor inner) :: entries, own, claimed₁, noted => by
    rw [inlineDrafts]
    split
    · exact .bind (notes_draft s (.mapping line anchor inner) "" claimed₁) fun draft claimed₂ added =>
        notes_inline s entries (noted.addMissing added)
    · exact notes_inline s entries noted
  | (key, .scalar _ _ _ _) :: entries, own, claimed₁, noted | (key, .alias _ _ _) :: entries, own, claimed₁, noted
  | (key, .sequence _ _ _) :: entries, own, claimed₁, noted => by
    simp only [inlineDrafts, ite_self]
    exact notes_inline s entries noted

end

/-- **One of the two trees.** -/
theorem notes_treeDrafts (s : Source) (key : String) (value : Document) (claimed : Claimed) :
    YieldsFrom claimed (value.treeDrafts s key) fun f => Noted s claimed f := by
  unfold treeDrafts
  split
  · exact .pure .nil
  · cases value with
    | mapping => exact .bind (notes_draft s _ key claimed) fun draft claimed₁ below => .pure below
    | _ => exact .throw

/-- The keys of a tree with the comments that stand under them. -/
def commentsOf (t : Tree) : Rose (String × Option String) := t.top.map fun e => commentOf e.data

/-- The comments of a tree were taken from lines, those of each node from a run of its own. The root has none. -/
structure CommentsFrom (s : Source) (t : Tree) (name : String) (lines : Forest KeyLines) : Prop where
  told : commentsOf t = ⟨(name, none), lines.map s.told⟩
  remarks : lines.Everywhere fun r => s.AreRemarks r.label.2

variable {s : Source} {c : Configuration} {t : Tree} {name : String} {lines : Forest KeyLines}

/-- Drafts that are added below the root bring their comments. -/
theorem CommentsFrom.graftAll_root (h : CommentsFrom s t name lines) {drafts : Forest NodeData}
    {added : Forest KeyLines} (same : drafts.map commentOf = added.map s.told)
    (remarks : added.Everywhere fun r => s.AreRemarks r.label.2) :
    CommentsFrom s (t.graftAll t.root drafts).1 name (lines ++ added) := by
  refine ⟨?_, Forest.everywhere_append.2 ⟨h.remarks, remarks⟩⟩
  have told := Rose.mk.inj h.told
  have grafted : (drafts.number t.next).1.map (fun e => commentOf e.data) = added.map s.told := by
    have data := congrArg (Forest.map commentOf) (Forest.map_data_number drafts t.next)
    rw [Forest.map_map] at data
    exact data.trans same
  rw [commentsOf, t.top_graftAll_root drafts, Rose.map, Forest.map_append, Forest.map_append]
  exact congrArg₂ Rose.mk told.1 (congrArg₂ (· ++ ·) told.2 grafted)

/-- Environments that are made objects keep their comments. -/
theorem CommentsFrom.normalizeEnvironments (h : CommentsFrom s t name lines) {children : Forest Entry}
    (normal : normalizeEnvironments t.top.children = .ok children) :
    CommentsFrom s { t with top := { t.top with children } } name lines := by
  refine ⟨?_, h.remarks⟩
  have data := congrArg (Forest.map commentOf) (map_data_normalizeEnvironments normal)
  rw [map_commentOf_asObjects, Forest.map_map, Forest.map_map] at data
  exact (congrArg (Rose.mk _) data).trans h.told

/-- The comments of a configuration were taken from lines that are claimed, no two from one line. -/
def NotedTrees (s : Source) (c : Configuration) (claimed : Claimed) : Prop :=
  ∃ d e, CommentsFrom s c.default defaultKey d ∧ CommentsFrom s c.environments environmentsKey e ∧
    Claims [] (allLines d ++ allLines e) claimed

/-- **Entries.** Each takes the comments of what it adds from lines that are left. -/
theorem notes_entriesOf (s : Source) (entries : List (Document × Document)) {c : Configuration} {claimed : Claimed}
    (noted : NotedTrees s c claimed) : YieldsFrom claimed (addEntries s c entries) (NotedTrees s) := by
  induction entries generalizing c claimed with
  | nil =>
    rw [addEntries]
    exact .pure noted
  | cons e entries ih =>
    obtain ⟨key, value⟩ := e
    obtain ⟨d, e, default, environments, claims⟩ := noted
    rw [addEntries]
    refine .lift fun name _ => ?_
    split
    · refine .bind (notes_treeDrafts s name value claimed) fun drafts claimed₁ new => ih ?_
      obtain ⟨added, same, remarks, claims'⟩ := new
      refine ⟨d ++ added, e, default.graftAll_root same remarks, environments, (claims.append claims').subperm ?_⟩
      rw [allLines_append, List.append_assoc, List.append_assoc]
      exact (List.perm_append_comm.append_left _).subperm
    · split
      · refine (notes_treeDrafts s name value claimed).bind fun drafts claimed₁ new => ?_
        obtain ⟨added, same, remarks, claims'⟩ := new
        have grown := environments.graftAll_root same remarks
        generalize (c.environments.graftAll c.environments.root drafts).1 = envs at grown ⊢
        refine .lift fun children normal => ih ⟨d, e ++ added, default, grown.normalizeEnvironments normal, ?_⟩
        rw [allLines_append, ← List.append_assoc]
        exact claims.append claims'
      · exact .throw

/-! ## Block scalars -/

/-- Whether an event tells a literal or a folded scalar. -/
def Event.isBlockScalar : Event → Bool
  | .scalar _ .literal _ | .scalar _ .folded _ => true
  | _ => false

/-- From the line of each literal or folded scalar to that of the next event, where this is further down. -/
def blockRanges : List (Nat × Event) → List BlockRange
  | (first, e) :: (stop, e') :: events =>
    (if e.isBlockScalar ∧ first < stop then [⟨first, stop⟩] else []) ++ blockRanges ((stop, e') :: events)
  | _ => []

namespace Assembly

@[simp] theorem blocks_declare (a : Assembly) (number : Nat) (type : ValueType) :
    (a.declare number type).2.blocks = a.blocks ∧ (a.declare number type).2.openBlock = a.openBlock := by
  unfold declare
  split
  · exact ⟨rfl, rfl⟩
  · split
    · exact ⟨rfl, rfl⟩
    · split <;> exact ⟨rfl, rfl⟩

@[simp] theorem blocks_insert (a : Assembly) (node : Document) :
    (a.insert node).blocks = a.blocks ∧ (a.insert node).openBlock = a.openBlock := by
  unfold insert
  split <;> exact ⟨rfl, rfl⟩

theorem blocks_closeBlock (a : Assembly) (line : Nat) : (a.closeBlock line).blocks =
      a.blocks ++ (a.openBlock.toList.filter (· < line)).map (BlockRange.mk · line) ∧
    (a.closeBlock line).openBlock = none := by
  unfold closeBlock
  cases opened : a.openBlock with
  | none => simp [opened]
  | some first => by_cases later : first < line <;> simp [later]

/-- What an event says of block scalars. -/
theorem blocks_receive (a : Assembly) (line : Nat) (e : Event) :
    (a.receive line e).blocks = (a.closeBlock line).blocks ∧
      (a.receive line e).openBlock = if e.isBlockScalar then some line else none := by
  obtain ⟨-, closed⟩ := a.blocks_closeBlock line
  unfold receive
  generalize a.closeBlock line = a at closed
  cases e with
  | scalar text style number =>
    cases style <;> simp [Event.isBlockScalar, closed]
  | «alias» number =>
    dsimp only
    split <;> simp [Event.isBlockScalar, closed]
  | mappingEnd | sequenceEnd =>
    dsimp only
    split <;> simp [Event.isBlockScalar, closed]
  | _ => simp [Event.isBlockScalar, closed]

/-- The block scalar that an assembly has open, as an event. -/
def pending (a : Assembly) : List (Nat × Event) := a.openBlock.toList.map fun line => (line, .scalar "" .literal 0)

/-- **Block scalars** are known by the line of their event and by that of the next. -/
theorem blocks_receiveAll (a : Assembly) (events : List (Nat × Event)) :
    (a.receiveAll events).blocks = a.blocks ++ blockRanges (a.pending ++ events) := by
  induction events generalizing a with
  | nil => cases opened : a.openBlock <;> simp [receiveAll, pending, blockRanges, opened]
  | cons e events ih =>
    obtain ⟨line, e⟩ := e
    obtain ⟨blocks, opened⟩ := a.blocks_receive line e
    have literal : (Event.scalar "" .literal 0).isBlockScalar = true := rfl
    have next : blockRanges ((a.receive line e).pending ++ events) = blockRanges ((line, e) :: events) := by
      rw [pending, opened]
      cases events <;> cases block : e.isBlockScalar <;> simp [blockRanges, literal, block]
    have closing : blockRanges (a.pending ++ (line, e) :: events) =
        (a.openBlock.toList.filter (· < line)).map (BlockRange.mk · line) ++ blockRanges ((line, e) :: events) := by
      rw [pending]
      cases a.openBlock with
      | none => rfl
      | some first => by_cases later : first < line <;> simp [blockRanges, literal, later]
    have all : a.receiveAll ((line, e) :: events) = (a.receive line e).receiveAll events := rfl
    rw [all, ih, blocks, (a.blocks_closeBlock line).1, next, closing, List.append_assoc]

end Assembly

/-! ## Configurations -/

/-- The events that a text tells, each with its line. -/
def eventLines (text : String) : List (Nat × Event) :=
  ((eventsOf? (tokensOf text)).getD []).map fun (m, e) => (lineOf text.toList m, e)

/-- The lines of a text as loading sees them. -/
def sourceOf (text : String) : Source := (readDocument text).toOption.elim (.ofText text []) (·.2)

/-- The lines that are claimed when a text is loaded. -/
def claimedIn (text : String) : Claimed :=
  (addEntries (sourceOf text) .empty (entriesOf text) []).toOption.elim [] (·.2)

theorem sourceOf_eq {text : String} {root : Option Document} {source : Source}
    (read : readDocument text = .ok (root, source)) : sourceOf text = source := by
  unfold sourceOf
  rw [read]
  rfl

/-- The block scalars of a text are known by its events. -/
theorem blocks_sourceOf {text : String} (loaded : load text = .ok c) :
    sourceOf text = .ofText text (blockRanges (eventLines text)) := by
  unfold load at loaded
  obtain ⟨⟨root, source⟩, read, -⟩ := Outcome.bind_eq_ok.1 loaded
  rw [sourceOf_eq read]
  unfold readDocument at read
  dsimp only at read
  split at read
  · cases read
  · rename_i events told
    split at read
    · cases read
    · rw [← (Prod.mk.inj (Except.ok.inj read)).2, Assembly.blocks_receiveAll, eventLines, told]
      rfl

/-- Loading adds the entries of the document to the empty configuration. -/
theorem addEntries_of_load {text : String} (loaded : load text = .ok c) :
    addEntries (sourceOf text) .empty (entriesOf text) [] = .ok (c, claimedIn text) := by
  have entered : ∃ claimed, addEntries (sourceOf text) .empty (entriesOf text) [] = .ok (c, claimed) := by
    have nothing (s : Source) : addEntries s .empty [] [] = .ok (.empty, []) := by rw [addEntries]; rfl
    unfold load at loaded
    obtain ⟨⟨root, source⟩, read, loaded⟩ := Outcome.bind_eq_ok.1 loaded
    rw [entriesOf_eq read, sourceOf_eq read]
    cases root with
    | none =>
      cases loaded
      exact ⟨[], nothing source⟩
    | some d =>
      dsimp only at loaded
      split at loaded
      · rename_i null
        cases loaded
        cases d with
        | scalar => exact ⟨[], nothing source⟩
        | _ => cases null
      · cases d with
        | mapping line anchor entries => exact Outcome.run'_eq_ok.1 loaded
        | _ => cases loaded
  obtain ⟨claimed, entered⟩ := entered
  rw [claimedIn, entered]
  rfl

/-- **No line is in two comments.** Whatever text is accepted: every comment was taken from lines one right below the
other, each of which looks like a comment. Between the line of a literal or folded scalar and that of the next event
only lines are taken that are indented less than the first one with content below the line of the scalar. A line is
claimed once, and no line is in the comments of two nodes of the two trees. -/
theorem comment_lines_of_load {text : String} (loaded : load text = .ok c) :
    sourceOf text = .ofText text (blockRanges (eventLines text)) ∧ (claimedIn text).Nodup ∧
      ∃ d e, CommentsFrom (sourceOf text) c.default defaultKey d ∧
        CommentsFrom (sourceOf text) c.environments environmentsKey e ∧
        (allLines d ++ allLines e).Nodup ∧ allLines d ++ allLines e ⊆ claimedIn text := by
  have empty : NotedTrees (sourceOf text) .empty [] :=
    ⟨.nil, .nil, ⟨rfl, Forest.everywhere_nil⟩, ⟨rfl, Forest.everywhere_nil⟩, .nil⟩
  obtain ⟨d, e, default, environments, claims⟩ :=
    notes_entriesOf (sourceOf text) (entriesOf text) empty _ (addEntries_of_load loaded)
  exact ⟨blocks_sourceOf loaded, claims.distinct List.nodup_nil, d, e, default, environments, claims.once, claims.after⟩

/-- A document with a comment of two lines, one of an item that starts below its dash, a mapping under a merge key of
which nothing is left, and a literal scalar with a line that looks like a comment. -/
def remarked : String :=
  "default:\n  # one\n  # two\n  l:\n    # three\n    -\n      k: |\n        # text\n  a: 1\n" ++
    "  <<:\n    # four\n    a: 2\nenvironments:\n  # five\n  prod: \x7b\x7d\n"

theorem comment_lines_of_load_remarked : ∃ c, load remarked = .ok c ∧ claimedIn remarked = [13, 10, 4, 1, 2] ∧
    commentsOf c.default = ⟨(defaultKey, none), .cons ("l", some "one\ntwo")
      (.cons ("[0]", some "three") (.cons ("k", none) .nil .nil) .nil) (.cons ("a", none) .nil .nil)⟩ ∧
    sourceOf remarked = .ofText remarked (blockRanges (eventLines remarked)) ∧ (claimedIn remarked).Nodup ∧
      ∃ d e, CommentsFrom (sourceOf remarked) c.default defaultKey d ∧
        CommentsFrom (sourceOf remarked) c.environments environmentsKey e ∧
        (allLines d ++ allLines e).Nodup ∧ allLines d ++ allLines e ⊆ claimedIn remarked := by
  have known : (load remarked).toOption.map (fun c => commentsOf c.default) = some ⟨(defaultKey, none),
      .cons ("l", some "one\ntwo") (.cons ("[0]", some "three") (.cons ("k", none) .nil .nil) .nil)
        (.cons ("a", none) .nil .nil)⟩ := by decide +kernel
  obtain ⟨c, loaded, comments⟩ := Option.map_eq_some_iff.1 known
  rw [Outcome.toOption_eq_some] at loaded
  exact ⟨c, loaded, by decide +kernel, comments, comment_lines_of_load loaded⟩

/-- A document in which a line of a literal scalar is indented less than the second. -/
def scripted : String := "default:\n  script: |\n    x\n      y\n    # z\n  next: 1\n"

/-- A document in which a line of a quoted scalar looks like a comment. -/
def quotedOver : String := "default:\n  a: \"x\n    # y\"\n  b: 1\n"

/-- A line of a scalar becomes a comment: the sign stands in the text of the one scalar, and nowhere else. -/
theorem scalar_line_in_comment :
    (scripted.toList.count '#' = 1 ∧ quotedOver.toList.count '#' = 1) ∧
      (.scalar .literal "x\n  y\n# z\n" ∈ (tokensOf scripted).map (·.kind) ∧
        .scalar .doubleQuoted "x # y" ∈ (tokensOf quotedOver).map (·.kind)) ∧
      ((load scripted).toOption.map fun c => commentsOf c.default) =
        some ⟨(defaultKey, none), .cons ("script", none) .nil (.cons ("next", some "z") .nil .nil)⟩ ∧
      ((load quotedOver).toOption.map fun c => commentsOf c.default) =
        some ⟨(defaultKey, none), .cons ("a", none) .nil (.cons ("b", some "y\"") .nil .nil)⟩ := by
  decide +kernel

end LayeredConfig.Yaml
