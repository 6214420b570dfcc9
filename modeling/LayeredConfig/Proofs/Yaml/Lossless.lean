import LayeredConfig.Proofs.Yaml.CommentCount
import LayeredConfig.Proofs.Yaml.Reloaded

/-!
# Saving and loading again

When a configuration that was loaded, and is saved, comes back the same (`load_emit_same_iff`). What is read back of
its nodes differs in nothing but comments and the types of aliases (`uncommented_entries_iff`). Of the comments those
around the dashes of items may move, and an empty last line is not written.

The texts are such as are read as they were written. A string of line breaks is not among them (`line_break_lost`).
-/

namespace LayeredConfig

namespace Configuration

/-- What the nodes of both trees hold, in order. -/
def data (c : Configuration) : Draft × Draft := (c.default.top.map (·.data), c.environments.top.map (·.data))

end Configuration

namespace Yaml

open Document

variable {s : Source} {H : History} {d : NodeData} {below : Forest NodeData}

/-! ## Trees -/

/-- **A tree.** What is below the value of one of the two keys is read as it was written. -/
theorem rereads_treeDrafts (can : Regainable ⟨d, below⟩) (inner : below.Everywhere Regainable)
    (object : d.type = .object) (line line' : Nat) (name : String) :
    Yields (treeDrafts s name ((itemOf false line d below).document H
      (documents H (items (d.type = .array) line' below))))
      fun drafts => drafts.map NodeData.uncommented = (reread H below).map NodeData.uncommented := by
  obtain ⟨entries, its⟩ := rereads_entries_and_items s below inner
  have drafted := rereads_toDraft can (inner.mono fun _ h => h.own) entries its H false line line' name
  unfold treeDrafts
  rw [isNull_document object, if_neg Bool.false_ne_true]
  generalize (itemOf false line d below).document H (documents H (items (d.type = .array) line' below)) = doc
    at drafted ⊢
  cases doc with
  | mapping => exact drafted.bind fun draft hd => .pure hd.2.below
  | _ => exact .throw

theorem asObjects_of_objects {f : Forest NodeData} (objects : ∀ d ∈ f.rootLabels, d.type = .object) :
    asObjects f = f := by
  induction f with
  | nil => rfl
  | cons d below rest _ ih =>
    obtain ⟨here, others⟩ := List.forall_mem_cons.1 objects
    rw [asObjects, ih others, ← here]

/-- An object is read as one, or it is an alias. -/
theorem type_of_mem_reread {f : Forest NodeData} (objects : ∀ d ∈ f.rootLabels, d.type = .object) :
    ∀ d ∈ (reread H f).rootLabels, d.type = .object ∨ d.aliases ≠ [] := by
  induction f generalizing H with
  | nil => exact List.forall_mem_nil _
  | cons d below rest _ ih =>
    obtain ⟨here, others⟩ := List.forall_mem_cons.1 objects
    refine List.forall_mem_cons.2 ⟨?_, ih others⟩
    have shape : Shape d below.isEmpty (formOf d below.isEmpty) :=
      shape_formOf fun scalar => by rw [here] at scalar; cases scalar
    cases form : formOf d below.isEmpty with
    | aliased name type =>
      rw [form] at shape
      cases shape with
      | aliased _ _ listed =>
        rw [readAs_of_aliased form]
        exact .inr (List.ne_nil_of_mem listed)
    | _ =>
      rw [readAs_of_declared (by rw [form]; rfl)]
      exact .inl here

/-- Environments that were objects are read as such, or they are refused. -/
theorem map_data_normalized {drafts : Forest NodeData} (same : drafts.map NodeData.uncommented =
      (reread H below).map NodeData.uncommented) (objects : ∀ d ∈ below.rootLabels, d.type = .object)
    {children : Forest Entry}
    (normal : normalizeEnvironments (Tree.ofDrafts .environments drafts).top.children = .ok children) :
    children.map (·.data) = drafts := by
  have drafted : (Tree.ofDrafts .environments drafts).top.children.map (·.data) = drafts :=
    congrArg Rose.children (Tree.map_data_ofDrafts .environments drafts)
  rw [map_data_normalizeEnvironments normal, drafted]
  refine asObjects_of_objects fun d hd => ?_
  have becomes : BecomesEnvironment d := by
    have all := (normalizeEnvironments_ok_iff _).1 ⟨children, normal⟩
    rw [← List.forall_mem_map (f := Entry.data), ← Forest.rootLabels_map, drafted] at all
    exact all d hd
  have labels := congrArg Forest.rootLabels same
  rw [Forest.rootLabels_map, Forest.rootLabels_map] at labels
  obtain ⟨d', hd', as⟩ := List.mem_map.1 (labels ▸ List.mem_map_of_mem hd)
  have type : d'.type = d.type := (congrArg NodeData.type as :)
  have aliases : d'.aliases = d.aliases := (congrArg NodeData.aliases as :)
  have read := type_of_mem_reread objects d' hd'
  rw [type, aliases] at read
  rcases becomes with object | ⟨-, none⟩
  · exact object
  · exact read.resolve_right fun some => some (List.isEmpty_iff.1 none)

/-- **The two entries of a configuration.** -/
theorem rereads_addEntries (it it' : Item) (key : it.key = defaultKey) (key' : it'.key = environmentsKey)
    {H' : History} {below' : Forest NodeData} {doc doc' : Document}
    (tree : ∀ name, Yields (treeDrafts s name doc) fun drafts =>
      drafts.map NodeData.uncommented = (reread H below).map NodeData.uncommented)
    (tree' : ∀ name, Yields (treeDrafts s name doc') fun drafts =>
      drafts.map NodeData.uncommented = (reread H' below').map NodeData.uncommented)
    (objects : ∀ d ∈ below'.rootLabels, d.type = .object) :
    Yields (addEntries s .empty [(it.keyDocument, doc), (it'.keyDocument, doc')]) fun c =>
      (entries c).map NodeData.uncommented = .cons { key := defaultKey } ((reread H below).map NodeData.uncommented)
        (.cons { key := environmentsKey } ((reread H' below').map NodeData.uncommented) .nil) := by
  rw [addEntries]
  refine .bind (.lift (Q := (· = it.key)) fun _ text => (Except.ok.inj text).symm) fun name text => ?_
  rw [text, if_pos key]
  refine (tree it.key).bind fun drafts hd => ?_
  rw [addEntries]
  refine .bind (.lift (Q := (· = it'.key)) fun _ text => (Except.ok.inj text).symm) fun name text => ?_
  rw [text, key', if_neg (by decide), if_pos rfl]
  refine (tree' environmentsKey).bind fun drafts' hd' => ?_
  refine .bind (.lift (Q := fun children => children.map (·.data) = drafts') fun children normal =>
    map_data_normalized hd' objects normal) fun children normal => .pure ?_
  have default := Rose.mk.inj (Tree.map_data_ofDrafts .default drafts)
  have label (d : NodeData) : ({ d with comment := none } : NodeData).uncommented = d.uncommented := rfl
  rw [entries, rootEntry, rootEntry, Forest.map, Forest.map, label, label, ← hd, ← hd', normal]
  exact congrArg₂ (fun (d : NodeData) f => Forest.cons d.uncommented (Forest.map _ f) _) default.1 default.2

/-- Two trees as the entries of a document. -/
def twoEntries (below below' : Forest NodeData) : Forest NodeData :=
  .cons { key := defaultKey } below (.cons { key := environmentsKey } below' .nil)

/-- What is loaded from the text of two trees. -/
theorem entries_of_load_written {below below' : Forest NodeData} {lines declared : List String} {c : Configuration}
    (written : nodeLines true "" false (twoEntries below below') [] = .ok (lines, declared))
    (readable : Readable (twoEntries below below')) (can : (twoEntries below below').Everywhere Regainable)
    (objects : ∀ d ∈ below'.rootLabels, d.type = .object) (loaded : load (joinLines lines) = .ok c) :
    (entries c).map NodeData.uncommented = (reread [] (twoEntries below below')).map NodeData.uncommented := by
  have read := readDocument_written written readable.leaves readable.scannable nofun rfl
    (margin_entries below below' rfl rfl)
  rw [load_eq_addEntries read, Outcome.run'_eq_ok] at loaded
  obtain ⟨claimed, entered⟩ := loaded
  obtain ⟨here, inner, others⟩ := Forest.everywhere_cons.1 can
  obtain ⟨here', inner', -⟩ := Forest.everywhere_cons.1 others
  simp only [twoEntries, items, documents] at entered
  rw [declare_itemOf here.fine, declareAll_items (inner.mono fun _ h => h.fine), declare_itemOf here'.fine] at entered
  refine (rereads_addEntries (itemOf false _ _ below) (itemOf false _ _ below') rfl rfl
    (rereads_treeDrafts here inner rfl _ _) (rereads_treeDrafts here' inner' rfl _ _) objects [] _ entered).trans ?_
  have bare (H : History) (key : String) (leaf : Bool) : readAs H { key } leaf = { key } := by cases leaf <;> rfl
  rw [twoEntries, reread, reread, reread, bare, bare]
  rfl

/-! ## Configurations -/

variable {c c' : Configuration} {text out : String}

/-- The two entries of a loaded configuration are bare. -/
theorem entries_of_load (loaded : load text = .ok c) :
    entries c = twoEntries (c.default.top.children.map (·.data)) (c.environments.top.children.map (·.data)) := by
  obtain ⟨default, environments⟩ := readBelow_of_load loaded
  rw [entries, rootEntry, rootEntry, default.root, environments.root]
  rfl

/-- Loaded environments are objects. -/
theorem objects_of_load (loaded : load text = .ok c) :
    ∀ d ∈ (c.environments.top.children.map (·.data)).rootLabels, d.type = .object := by
  rw [Forest.rootLabels_map, List.forall_mem_map]
  exact (extended_of_load loaded).1.objects

/-- What loads and can be written can be read back. -/
theorem regainable_of_load (loaded : load text = .ok c) (legible : c.Everywhere fun r => Legible r.label)
    {lines declared : List String} (written : nodeLines true "" false (entries c) [] = .ok (lines, declared)) :
    Readable (entries c) ∧ (entries c).Everywhere Regainable := by
  have readable : Readable (entries c) := readable_entries (fits_of_orderly (orderly_load loaded)) legible
  have read : (entries c).Everywhere fun r => r.label.AsRead :=
    everywhere_entries (asRead_of_load loaded) fun _ _ h => ⟨h.value, h.nothing, h.single⟩
  have numbered : (entries c).Everywhere ItemsNumbered :=
    everywhere_entries (itemsNumbered (numbered_of_load loaded)) fun _ _ h => h
  have fine := writable_of_nodeLines written readable.leaves
  refine ⟨readable, fun r hr => ?_⟩
  exact ⟨readable.leaves r hr, read r hr, fine r hr, readable.ownKeys r hr, numbered r hr⟩

/-- **What is read back** of a saved configuration, its comments apart. -/
theorem uncommented_entries_iff (loaded : load text = .ok c) (legible : c.Everywhere fun r => Legible r.label)
    (saved : emit c = .ok out) (reloaded : load out = .ok c') :
    (entries c').map NodeData.uncommented = (entries c).map NodeData.uncommented ↔
      KeepTypes [] (entries c).subtrees := by
  obtain ⟨lines, declared, written, rfl⟩ := emit_eq_ok saved
  obtain ⟨readable, can⟩ := regainable_of_load loaded legible written
  rw [← reread_eq_iff can (resolved_of_nodeLines written readable.leaves (H := []) nofun 0).1]
  rw [entries_of_load loaded] at written readable can ⊢
  rw [entries_of_load_written written readable can (objects_of_load loaded) reloaded]

/-- The trees of a forest keep their types behind what the trees before them declare. -/
theorem keepsType_root {f : Forest NodeData} (keep : KeepTypes H f.subtrees) :
    ∀ before r after, f.roots = before ++ r :: after →
      KeepsType (declarations (before.flatMap Rose.preorder) ++ H) r := by
  induction f generalizing H with
  | nil => exact fun before r after none => by simp [Forest.roots] at none
  | cons d below ss _ ih =>
    obtain ⟨here, -, others⟩ := keepTypes_cons.1 keep
    rw [Forest.roots, forall_split_cons]
    refine ⟨here, fun before r after same => ?_⟩
    rw [List.flatMap_cons, declarations_append, Rose.preorder, declarations_cons d below.preorder, List.append_assoc,
      List.append_assoc]
    exact ih others before r after same

/-- An object that keeps its type is read as an environment. -/
theorem readsAsEnvironment_of_keepsType {r : Draft} (object : r.label.type = .object) (keep : KeepsType H r) :
    ReadsAsEnvironment H r := by
  unfold KeepsType at keep
  unfold ReadsAsEnvironment
  rcases formOf_object object r.children.isEmpty with same | ⟨merged, same⟩ | ⟨name, same⟩
  · rw [same]
    trivial
  · rw [same]
    trivial
  · rw [same] at keep ⊢
    intro type ht
    rw [keep] at ht
    exact (Option.some.inj ht).symm

/-- Where types are kept, nothing but a repeated key can be refused. -/
theorem loadable_of_keepTypes (loaded : load text = .ok c) (keep : KeepTypes [] (entries c).subtrees)
    (keys : c.Everywhere ObjectKeys) : Loadable c := by
  obtain ⟨default, environments⟩ := readBelow_of_load loaded
  rw [entries_of_load loaded] at keep
  obtain ⟨-, -, others⟩ := keepTypes_cons.1 keep
  obtain ⟨-, below, -⟩ := keepTypes_cons.1 others
  refine ⟨keys, ?_, fun before r after split => ?_⟩
  -- A root that repeats nothing is written as a mapping.
  · rintro ⟨name, type, bare⟩
    rw [Rose.map, environments.root] at bare
    dsimp only at bare
    cases leaf : ((c.environments.top.children.map (·.data)).isEmpty) <;> rw [leaf] at bare <;> cases bare
  · have inside : r ∈ (c.environments.top.children.map (·.data)).roots := split ▸ by simp
    have object := objects_of_load loaded r.label (Forest.label_mem_rootLabels inside)
    have here := readsAsEnvironment_of_keepsType object (keepsType_root below before r after split)
    have same : declarations ((c.default.top.map (·.data)).preorder ++
        c.environments.top.label.data :: before.flatMap Rose.preorder) = declarations (before.flatMap Rose.preorder) ++
        (declarations [{ key := environmentsKey }] ++ (declarations (c.default.top.children.map (·.data)).preorder ++
          (declarations [{ key := defaultKey }] ++ []))) := by
      rw [declarations_append, declarations_cons _ (before.flatMap Rose.preorder), environments.root, Rose.preorder,
        declarations_cons _ (Rose.children _).preorder, Rose.map, default.root, List.append_assoc, List.append_nil]
      rfl
    rw [same]
    exact here

/-! ## What comes back -/

/-- Loaded configurations hold the same iff they do without their comments and have the same comments. -/
theorem data_eq_iff {text' : String} (loaded : load text = .ok c) (loaded' : load text' = .ok c') :
    c'.data = c.data ↔
      (entries c').map NodeData.uncommented = (entries c).map NodeData.uncommented ∧ c'.comments = c.comments := by
  constructor
  · intro same
    obtain ⟨default, environments⟩ := Prod.mk.inj same
    refine ⟨?_, ?_⟩
    · have entry (t : Tree) : rootEntry t = (fun r : Draft => ⟨{ r.label with comment := none }, r.children⟩)
          (t.top.map (·.data)) := rfl
      rw [entries, entries, entry, entry, entry, entry, default, environments]
    · rw [comments_eq, comments_eq, default, environments]
  · rintro ⟨plain, comments⟩
    rw [entries_of_load loaded, entries_of_load loaded'] at plain
    obtain ⟨-, default, plain⟩ := Forest.cons.inj plain
    obtain ⟨-, environments, -⟩ := Forest.cons.inj plain
    rw [comments_eq, comments_eq, Prod.mk.injEq] at comments
    have joint (d d' : NodeData) (same : d.uncommented = d'.uncommented) (same' : commentOf d = commentOf d') :
        d = d' := by
      obtain ⟨key, type, value, anchor, aliases, comment⟩ := d
      cases same
      cases same'
      rfl
    have tree {kind : TreeKind} {t t' : Tree} (root : t.top.label.data = { key := Tree.rootKeyOf kind })
        (root' : t'.top.label.data = { key := Tree.rootKeyOf kind })
        (same : (t'.top.children.map (·.data)).map NodeData.uncommented =
          (t.top.children.map (·.data)).map NodeData.uncommented)
        (same' : (t'.top.map (·.data)).map commentOf = (t.top.map (·.data)).map commentOf) :
        t'.top.map (·.data) = t.top.map (·.data) := by
      rw [Rose.map, Rose.map, root, root', Forest.eq_of_map_eq joint same (congrArg Rose.children same')]
    obtain ⟨root, root'⟩ := readBelow_of_load loaded
    obtain ⟨again, again'⟩ := readBelow_of_load loaded'
    exact Prod.ext (tree root.root again.root default comments.1) (tree root'.root again'.root environments comments.2)

theorem commentList_eq (c : Configuration) : commentList c =
    ((c.default.top.map (·.data)).preorder ++ (c.environments.top.map (·.data)).preorder).map (·.comment) := by
  have tree (t : Tree) : (commentsOf t).preorder.map (·.2) = (t.top.map (·.data)).preorder.map (·.comment) := by
    simp [commentsOf, Rose.map, Rose.preorder, commentOf, Function.comp_def]
  rw [commentList, List.map_append, List.map_append, tree, tree]

/-- The comments of what was loaded are written. -/
theorem comments_entries (loaded : load text = .ok c) : (entries c).preorder.map (·.comment) = commentList c := by
  obtain ⟨default, environments⟩ := readBelow_of_load loaded
  rw [commentList_eq, entries_of_load loaded, Rose.map, Rose.map, default.root, environments.root]
  simp [twoEntries, Forest.preorder, Rose.preorder]

/-- A comment that ends in an empty line does not come back. -/
theorem not_endsEmpty_of_reload (loaded : load text = .ok c) (legible : c.Everywhere fun r => Legible r.label)
    (inked : c.Everywhere fun r => keyInk r.label.key ≠ '#') (saved : emit c = .ok out) (reloaded : load out = .ok c')
    (same : c'.comments = c.comments) : c.Everywhere fun r => ∀ text ∈ r.label.comment, ¬EndsEmpty text := by
  obtain ⟨lines, declared, written, rfl⟩ := emit_eq_ok saved
  obtain ⟨readable, -⟩ := regainable_of_load loaded legible written
  obtain rfl := lines_eq written
  have scannable := readable.scannable
  have taken := loadedLines_le (linesOf_ne_nil scannable (by rw [entries]; exact nofun)) (straight_linesOf scannable)
    reloaded
  -- The lines of the same comments are counted as they were loaded and as they are written.
  have list : commentList c' = commentList c := congrArg (fun r : Rose (String × Option String) ×
    Rose (String × Option String) => (r.1.preorder ++ r.2.preorder).map fun n : String × Option String => n.2) same
  have few : loadedLines (commentList c) ≤ writtenLines (commentList c) := by
    rw [list] at taken
    refine taken.trans ?_
    rw [← comments_entries loaded]
    exact countP_kinds_linesOf scannable (everywhere_entries inked fun _ _ h => h)
  have each := not_endsEmpty_of_le few
  rw [commentList_eq, List.forall_mem_map, List.forall_mem_append] at each
  have closed (r : Draft) (h : ∀ d ∈ r.preorder, ∀ text ∈ d.comment, ¬EndsEmpty text) :
      r.Everywhere fun r => ∀ text ∈ r.label.comment, ¬EndsEmpty text :=
    (Rose.everywhere_label (p := fun d : NodeData => ∀ text ∈ d.comment, ¬EndsEmpty text)).2 h
  exact ⟨closed _ each.1, closed _ each.2⟩

theorem orderly_uncommented (orderly : c.Orderly IsName) : c.uncommented.Orderly IsName :=
  ⟨orderly.default.map (fun _ => rfl) (fun _ h => h) (fun _ => rfl) rfl,
    orderly.environments.map (fun _ => rfl) (fun _ h => h) (fun _ => rfl) rfl⟩

/-- What is found of the comments of a loaded configuration of which none ends in an empty line. -/
theorem comments_eq_found (loaded : load text = .ok c) (legible : c.Everywhere fun r => Legible r.label)
    (inked : c.Everywhere fun r => keyInk r.label.key ≠ '#')
    (closed : c.Everywhere fun r => ∀ text ∈ r.label.comment, ¬EndsEmpty text) (saved : emit c = .ok out)
    (reloaded : load out = .ok c') : c'.comments = c.foundComments := by
  have trimmed := trimmed_of_load loaded
  have notes : c.Everywhere fun r => ∀ text ∈ r.label.comment, Text.IsNote text :=
    ⟨(trimmed.1.and closed.1).mono fun _ h text ht => ⟨h.1 text ht, h.2 text ht⟩,
      (trimmed.2.and closed.2).mono fun _ h text ht => ⟨h.1 text ht, h.2 text ht⟩⟩
  exact comments_of_reload (orderly_uncommented (orderly_load loaded)) (itemsNumbered (numbered_of_load loaded)) notes
    legible inked saved reloaded

/-- What a configuration needs to come back the same. -/
structure ComesBack (c : Configuration) : Prop where
  /-- No object has two children of one key. -/
  keys : c.Everywhere ObjectKeys
  /-- Each alias has the type of the latest node above it with the anchor of that name. -/
  types : KeepTypes [] (entries c).subtrees
  /-- No comment ends in an empty line. -/
  comments : c.Everywhere fun r => ∀ text ∈ r.label.comment, ¬EndsEmpty text
  /-- No comment is lost around the dash of an item. -/
  items : c.Everywhere ItemsKeep

/-- **Saving and loading again.** Let a text load, with keys and strings that are read as they were written, and let
what it gives be saved. The saved text loads with the same keys, types, values, anchors, aliases and comments in the
same order exactly when no object has a key twice, each alias has the type of the latest node above it with the anchor
of its name, no comment ends in an empty line, and no item loses a comment at its dash. -/
theorem load_emit_same_iff (loaded : load text = .ok c) (legible : c.Everywhere fun r => Legible r.label)
    (inked : c.Everywhere fun r => keyInk r.label.key ≠ '#') (saved : emit c = .ok out) :
    (∃ c', load out = .ok c' ∧ c'.data = c.data) ↔ ComesBack c := by
  have orderly := orderly_load loaded
  obtain ⟨default, environments⟩ := readBelow_of_load loaded
  have found := foundComments_eq_iff (orderly_uncommented orderly)
    ⟨congrArg NodeData.comment default.root, congrArg NodeData.comment environments.root⟩
  constructor
  · rintro ⟨c', reloaded, same⟩
    obtain ⟨plain, comments⟩ := (data_eq_iff loaded reloaded).1 same
    -- Which comments are found is known only where none ends in an empty line, so this comes first.
    have closed := not_endsEmpty_of_reload loaded legible inked saved reloaded comments
    exact
      { keys := ((load_emit_iff saved orderly legible).1 ⟨c', reloaded⟩).keys
        types := (uncommented_entries_iff loaded legible saved reloaded).1 plain
        comments := closed
        items := found.1 ((comments_eq_found loaded legible inked closed saved reloaded).symm.trans comments) }
  · intro h
    obtain ⟨c', reloaded⟩ := (load_emit_iff saved orderly legible).2 (loadable_of_keepTypes loaded h.types h.keys)
    refine ⟨c', reloaded, (data_eq_iff loaded reloaded).2 ⟨?_, ?_⟩⟩
    · exact (uncommented_entries_iff loaded legible saved reloaded).2 h.types
    · exact (comments_eq_found loaded legible inked h.comments saved reloaded).trans (found.2 h.items)

/-- A document with comments, a string that looks like a number, a list, and anchors that are repeated and merged. -/
def furnished : String :=
  "default:\n  # one\n  # two\n  db: &db \x7bhost: '1', port: &p 0x10\x7d\n  l:\n    # three\n" ++
    "    - \x7b<<: *db, port: *p\x7d\nenvironments:\n  prod:\n    l:\n"

theorem load_emit_same_iff_furnished : ∃ c out, load furnished = .ok c ∧ emit c = .ok out ∧
    (c.Everywhere fun r => Legible r.label) ∧ (c.Everywhere fun r => keyInk r.label.key ≠ '#') ∧
    ((∃ c', load out = .ok c' ∧ c'.data = c.data) ↔ ComesBack c) ∧ ComesBack c := by
  let out := "default:\n  # one\n  # two\n  db: &db\n    host: '1'\n    port: &p 16\n  l:\n    # three\n" ++
    "    - <<: *db\n      port: *p\nenvironments:\n  prod:\n    l: null\n"
  have known : ∃ c ∈ (load furnished).toOption, emit c = .ok out ∧ (c.Everywhere fun r => Legible r.label) ∧
      (c.Everywhere fun r => keyInk r.label.key ≠ '#') ∧ c.Everywhere ObjectKeys ∧ KeepTypes [] (entries c).subtrees ∧
      (c.Everywhere fun r => ∀ text ∈ r.label.comment, ¬EndsEmpty text) ∧ c.Everywhere ItemsKeep := by decide +kernel
  obtain ⟨c, loaded, saved, legible, inked, keys, types, comments, items⟩ := known
  have loaded : load furnished = .ok c := Outcome.toOption_eq_some.1 loaded
  exact ⟨c, out, loaded, saved, legible, inked, load_emit_same_iff loaded legible inked saved, keys, types, comments,
    items⟩

/-- A string in the default tree. -/
def holding (text : String) : Configuration where
  default := .ofDrafts .default (.cons (.ofScalar "a" (.string text)) .nil .nil)
  environments := .empty .environments

/-- A string of one line break comes back empty. -/
theorem line_break_lost : ∃ out, load "default:\n  a: \"\\n\"\n" = .ok (holding "\n") ∧ emit (holding "\n") = .ok out ∧
    load out = .ok (holding "") ∧ (holding "").data ≠ (holding "\n").data :=
  ⟨"default:\n  a: |2+\nenvironments: \x7b\x7d\n", by decide +kernel, by decide +kernel, by decide +kernel,
    by decide +kernel⟩

end Yaml

end LayeredConfig
