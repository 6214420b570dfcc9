import LayeredConfig.Proofs.Yaml.Tidy
import LayeredConfig.Proofs.Yaml.Told

/-!
# Loading keeps markers

The anchors and aliases of a text are on the nodes of its document (`tellings_of_readDocument`). What is
converted to drafts keeps them: node by node, a mapping's own entries and a sequence's items in their order, the
names under merge keys in theirs (`yields_marked`). The two trees take over what is below their values and
nothing of the values themselves, so a marker on one of these is lost (`markers_of_load`).

An anchor on a key, or on the list under a merge key, is on no node of the trees; nothing is said of the
mappings under merge keys.
-/

namespace LayeredConfig.Yaml

open Document

namespace Document

/-- The anchor of a node. -/
def anchor? : Document → Option String
  | .scalar _ anchor _ _ | .mapping _ anchor _ | .sequence _ anchor _ => anchor
  | .alias .. => none

/-- The name of an alias. -/
def aliasName? : Document → Option String
  | .alias _ name _ => some name
  | _ => none

/-- The names that the value of a merge key lists. -/
def listed : Document → List String
  | .alias _ name _ => [name]
  | .sequence _ _ items => items.filterMap aliasName?
  | _ => []

/-- The names under the merge keys of a mapping. -/
def mergedNames (entries : List (Document × Document)) : List String :=
  (entries.filter (·.1.isMergeKey)).flatMap (·.2.listed)

/-- The names that a node repeats: an alias its own, a mapping those under its merge keys. -/
def repeats : Document → List String
  | .alias _ name _ => [name]
  | .mapping _ _ entries => mergedNames entries
  | _ => []

/-- Some data has the markers of a node. -/
def Marks (d : Document) (data : NodeData) : Prop := data.anchor = d.anchor? ∧ data.aliases = d.repeats

mutual

/-- A forest has the markers of the nodes below a node, each at its place. -/
def BelowShown : Document → Forest NodeData → Prop
  | .mapping _ _ entries, f => EntriesShown entries f
  | .sequence _ _ items, f => ItemsShown 0 items f
  | _, f => f = .nil

/-- A forest begins with the entries of a mapping, merge keys apart, and has their markers. -/
def EntriesShown : List (Document × Document) → Forest NodeData → Prop
  | [], _ => True
  | (key, value) :: entries, f =>
    if key.isMergeKey then EntriesShown entries f
    else
      ∃ d below rest, f = .cons d below rest ∧ key.keyText = .ok d.key ∧ value.Marks d ∧ BelowShown value below ∧
        EntriesShown entries rest

/-- A forest is the items of a sequence from a position on, and has their markers. -/
def ItemsShown : Nat → List Document → Forest NodeData → Prop
  | _, [], f => f = .nil
  | position, item :: items, f =>
    ∃ d below rest, f = .cons d below rest ∧ d.key = itemKey position ∧ item.Marks d ∧ BelowShown item below ∧
      ItemsShown (position + 1) items rest

end

theorem EntriesShown.append {entries : List (Document × Document)} {f : Forest NodeData} (h : EntriesShown entries f)
    (g : Forest NodeData) : EntriesShown entries (f ++ g) := by
  induction entries generalizing f with
  | nil => trivial
  | cons e entries ih =>
    unfold EntriesShown at h ⊢
    split at h
    · rename_i merge
      rw [if_pos merge]
      exact ih h
    · rename_i own
      obtain ⟨d, below, rest, rfl, key, marks, inner, h⟩ := h
      rw [if_neg own]
      exact ⟨d, below, rest ++ g, rfl, key, marks, inner, ih h⟩

theorem mergedNames_cons (key value : Document) (entries : List (Document × Document)) :
    mergedNames ((key, value) :: entries) =
      (if key.isMergeKey then value.listed else []) ++ mergedNames entries := by
  unfold mergedNames
  rw [List.filter_cons]
  cases key.isMergeKey <;> rfl

end Document

/-! ## Drafts -/

theorem mergeNames_eq_ok {parent : String} {items : List Document} {names : List String}
    (h : Document.mergeNames parent items = .ok names) : names = items.filterMap aliasName? := by
  induction items generalizing names with
  | nil =>
    cases h
    rfl
  | cons item items ih =>
    cases item with
    | «alias» line name type =>
      rw [Document.mergeNames] at h
      obtain ⟨rest, more, rfl⟩ := Outcome.map_eq_ok.1 h
      rw [ih more]
      rfl
    | _ => cases h

theorem mergeSources_eq_ok {parent : String} {value : Document} {names : List String}
    (h : mergeSources parent value = .ok names) : names = value.listed := by
  cases value with
  | sequence line anchor items => exact mergeNames_eq_ok h
  | scalar => cases h
  | _ =>
    cases h
    rfl

theorem exists_append_addMissing (own added : Forest NodeData) :
    ∃ more, own.addMissing (·.key) added = own ++ more := by
  induction added generalizing own with
  | nil => exact ⟨.nil, (Forest.append_nil own).symm⟩
  | cons d below rest _ ih =>
    rw [Forest.addMissing]
    split
    · exact ih own
    · obtain ⟨more, same⟩ := ih (own ++ .cons d below .nil)
      exact ⟨_, by rw [same, Forest.append_assoc]⟩

/-- The own entries of a mapping come first, what its merge keys add behind them. -/
theorem yields_inline_append (s : Source) (entries : List (Document × Document)) (own : Forest NodeData) :
    Yields (inlineDrafts s own entries) fun f => ∃ more, f = own ++ more := by
  induction entries generalizing own with
  | nil =>
    rw [inlineDrafts]
    exact .pure ⟨.nil, (Forest.append_nil own).symm⟩
  | cons e entries ih =>
    obtain ⟨key, value⟩ := e
    unfold inlineDrafts
    split
    · split
      · refine .after fun draft => (ih _).mono fun f hf => ?_
        obtain ⟨more, same⟩ := hf
        obtain ⟨added, same'⟩ := exists_append_addMissing own draft.children
        exact ⟨added ++ more, by rw [same, same', Forest.append_assoc]⟩
      · exact ih own
    · exact ih own

/-- The draft of a document under a key. -/
structure DraftShows (key : String) (d : Document) (draft : Draft) : Prop where
  key : draft.label.key = key
  marks : d.Marks draft.label
  below : d.BelowShown draft.children

mutual

/-- **Nodes.** The draft of a node has its markers, and so have those below it. -/
theorem yields_marked (s : Source) : ∀ (d : Document) (key : String), Yields (toDraft s key d) (DraftShows key d)
  | .scalar line anchor text plain, key => by
    rw [toDraft]
    refine .pure ⟨?_, ⟨rfl, ?_⟩, rfl⟩
    · cases scalarValue text plain <;> rfl
    · cases scalarValue text plain <;> rfl
  | .alias line name type, key => by
    rw [toDraft]
    exact .pure ⟨rfl, ⟨rfl, rfl⟩, rfl⟩
  | .mapping line anchor entries, key => by
    rw [toDraft]
    refine .bind (yields_marked_entries s entries key []) fun r ⟨names, shown⟩ => ?_
    refine .bind (yields_inline_append s entries r.2) fun children ⟨more, same⟩ =>
      .pure ⟨rfl, ⟨rfl, names⟩, ?_⟩
    rw [same]
    exact shown.append more
  | .sequence line anchor items, key => by
    rw [toDraft]
    exact .bind (yields_marked_items s items 0) fun children shown => .pure ⟨rfl, ⟨rfl, rfl⟩, shown⟩

theorem yields_marked_items (s : Source) : ∀ (items : List Document) (position : Nat),
    Yields (itemDrafts s position items) (ItemsShown position items)
  | [], position => by
    rw [itemDrafts]
    exact .pure rfl
  | item :: items, position => by
    rw [itemDrafts]
    exact .after fun comment => .bind (yields_marked s item "") fun draft hd =>
      .bind (yields_marked_items s items (position + 1)) fun rest hr =>
        .pure ⟨_, _, _, rfl, rfl, hd.marks, hd.below, hr⟩

theorem yields_marked_entries (s : Source) : ∀ (entries : List (Document × Document)) (parent : String)
    (seen : List String),
    Yields (entryDrafts s parent seen entries) fun r => r.1 = mergedNames entries ∧ EntriesShown entries r.2
  | [], parent, seen => by
    rw [entryDrafts]
    exact .pure ⟨rfl, trivial⟩
  | (key, value) :: entries, parent, seen => by
    rw [entryDrafts, mergedNames_cons]
    unfold EntriesShown
    split
    · refine .bind (.lift fun names => mergeSources_eq_ok) fun names listed =>
        .bind (yields_marked_entries s entries parent seen) fun r ⟨more, shown⟩ => .pure ⟨?_, shown⟩
      rw [listed, more]
    · refine .bind (.lift fun name text => text) fun name text => .check fun new => .after fun comment =>
        .bind (yields_marked s value name) fun draft hd =>
        .bind (yields_marked_entries s entries parent (name :: seen)) fun r ⟨more, shown⟩ => .pure ⟨more, ?_⟩
      exact ⟨_, _, _, rfl, hd.key.symm ▸ text, hd.marks, hd.below, shown⟩

end

/-- The drafts of one of the two trees have the markers below its value. -/
theorem yields_treeDrafts_marked (s : Source) (key : String) (value : Document) :
    Yields (value.treeDrafts s key) (BelowShown value) := by
  unfold treeDrafts
  split
  · rename_i null
    cases value with
    | scalar => exact .pure rfl
    | _ => cases null
  · cases value with
    | mapping line anchor entries => exact .bind (yields_marked s _ key) fun draft hd => .pure hd.below
    | _ => exact .throw

/-! ## Trees -/

/-- A forest has the markers below some values, one value after the other. -/
def ValuesShown : List Document → Forest NodeData → Prop
  | [], f => f = .nil
  | value :: values, f => ∃ part rest, f = part ++ rest ∧ BelowShown value part ∧ ValuesShown values rest

theorem ValuesShown.append {values : List Document} {f : Forest NodeData} (h : ValuesShown values f) {value : Document}
    {part : Forest NodeData} (below : BelowShown value part) : ValuesShown (values ++ [value]) (f ++ part) := by
  induction values generalizing f with
  | nil =>
    obtain rfl : f = .nil := h
    exact ⟨part, .nil, by rw [Forest.append_nil]; rfl, below, rfl⟩
  | cons v values ih =>
    obtain ⟨first, rest, rfl, here, h⟩ := h
    exact ⟨first, rest ++ part, Forest.append_assoc _ _ _, here, ih h⟩

/-- The trees of a forest made objects. -/
def asObjects : Forest NodeData → Forest NodeData
  | .nil => .nil
  | .cons d below rest => .cons { d with type := .object } below (asObjects rest)

theorem asObjects_append (f g : Forest NodeData) : asObjects (f ++ g) = asObjects f ++ asObjects g := by
  induction f with
  | nil => rfl
  | cons d below rest _ ih => rw [Forest.cons_append, asObjects, asObjects, ih, Forest.cons_append]

namespace Document

theorem EntriesShown.asObjects {entries : List (Document × Document)} {f : Forest NodeData}
    (h : EntriesShown entries f) : EntriesShown entries (asObjects f) := by
  induction entries generalizing f with
  | nil => trivial
  | cons e entries ih =>
    unfold EntriesShown at h ⊢
    split at h
    · rename_i merge
      rw [if_pos merge]
      exact ih h
    · rename_i own
      obtain ⟨d, below, rest, rfl, key, marks, inner, h⟩ := h
      rw [if_neg own]
      exact ⟨_, _, _, rfl, key, marks, inner, ih h⟩

theorem ItemsShown.asObjects {position : Nat} {items : List Document} {f : Forest NodeData}
    (h : ItemsShown position items f) : ItemsShown position items (asObjects f) := by
  induction items generalizing position f with
  | nil =>
    obtain rfl : f = .nil := h
    rfl
  | cons item items ih =>
    unfold ItemsShown at h ⊢
    obtain ⟨d, below, rest, rfl, key, marks, inner, h⟩ := h
    exact ⟨_, _, _, rfl, key, marks, inner, ih h⟩

theorem BelowShown.asObjects {value : Document} {f : Forest NodeData} (h : BelowShown value f) :
    BelowShown value (asObjects f) := by
  cases value with
  | mapping => exact EntriesShown.asObjects h
  | sequence => exact ItemsShown.asObjects h
  | _ =>
    obtain rfl : f = .nil := h
    rfl

end Document

theorem ValuesShown.asObjects {values : List Document} {f : Forest NodeData} (h : ValuesShown values f) :
    ValuesShown values (asObjects f) := by
  induction values generalizing f with
  | nil =>
    obtain rfl : f = .nil := h
    rfl
  | cons value values ih =>
    obtain ⟨part, rest, rfl, here, h⟩ := h
    exact ⟨_, _, asObjects_append part rest, here.asObjects, ih h⟩

/-- Environments differ from what they are made of by their type. -/
theorem map_data_normalizeEnvironments {f f' : Forest Entry} (done : normalizeEnvironments f = .ok f') :
    f'.map (·.data) = asObjects (f.map (·.data)) := by
  induction f generalizing f' with
  | nil =>
    cases done
    rfl
  | cons e below rest _ ih =>
    rw [normalizeEnvironments] at done
    split at done
    · rename_i object
      obtain ⟨rest', normal, same⟩ := Outcome.bind_eq_ok.1 done
      cases same
      rw [Forest.map, Forest.map, asObjects, ih normal, ← object]
    · split at done
      · obtain ⟨rest', normal, same⟩ := Outcome.bind_eq_ok.1 done
        cases same
        rw [Forest.map, Forest.map, asObjects, ih normal]
      · cases done

/-- A tree has the markers below some values. Its root has none. -/
structure ShowsBelow (t : Tree) (values : List Document) : Prop where
  below : ValuesShown values (t.top.children.map (·.data))
  anchor : t.top.label.data.anchor = none
  aliases : t.top.label.data.aliases = []

theorem ShowsBelow.graftAll_root {t : Tree} {values : List Document} (h : ShowsBelow t values) {value : Document}
    {drafts : Forest NodeData} (below : BelowShown value drafts) :
    ShowsBelow (t.graftAll t.root drafts).1 (values ++ [value]) := by
  have grown := t.top_graftAll_root drafts
  refine ⟨?_, by rw [grown]; exact h.anchor, by rw [grown]; exact h.aliases⟩
  rw [grown, Forest.map_append, Forest.map_data_number]
  exact h.below.append below

/-- The values of the entries for one of the two trees. -/
def valuesOf (key : String) (entries : List (Document × Document)) : List Document :=
  (entries.filter (·.1.keyText.toOption == some key)).map (·.2)

theorem valuesOf_cons (name : String) (key value : Document) (entries : List (Document × Document)) :
    valuesOf name ((key, value) :: entries) =
      if key.keyText = .ok name then value :: valuesOf name entries else valuesOf name entries := by
  unfold valuesOf
  rw [List.filter_cons]
  simp only [beq_iff_eq, Outcome.toOption_eq_some]
  split <;> rfl

/-- Both trees have the markers below their values. -/
structure ShowsTrees (c : Configuration) (values values' : List Document) : Prop where
  default : ShowsBelow c.default values
  environments : ShowsBelow c.environments values'

/-- **Entries.** The markers below the value of each entry come behind those that are there. -/
theorem yields_shown (s : Source) (entries : List (Document × Document)) {c : Configuration}
    {values values' : List Document} (hc : ShowsTrees c values values') :
    Yields (addEntries s c entries) fun c' =>
      ShowsTrees c' (values ++ valuesOf defaultKey entries) (values' ++ valuesOf environmentsKey entries) := by
  induction entries generalizing c values values' with
  | nil =>
    rw [addEntries]
    simp only [valuesOf, List.filter_nil, List.map_nil, List.append_nil]
    exact .pure hc
  | cons e entries ih =>
    obtain ⟨key, value⟩ := e
    rw [addEntries]
    refine .bind (.lift fun name text => text) fun name text => ?_
    rw [valuesOf_cons, valuesOf_cons, text]
    split
    · rename_i isDefault
      subst isDefault
      rw [if_pos rfl, if_neg (by decide), List.append_cons]
      exact .bind (yields_treeDrafts_marked s _ value) fun drafts below =>
        ih ⟨hc.default.graftAll_root below, hc.environments⟩
    · rename_i other
      split
      · rename_i isEnvironments
        subst isEnvironments
        rw [if_neg (by decide), if_pos rfl, List.append_cons]
        refine .bind (yields_treeDrafts_marked s _ value) fun drafts below => ?_
        have grown := hc.environments.graftAll_root below
        generalize (c.environments.graftAll c.environments.root drafts).1 = envs at grown ⊢
        refine .bind (.lift fun children ok => ok) fun children normal =>
          ih ⟨hc.default, ?_, grown.anchor, grown.aliases⟩
        rw [map_data_normalizeEnvironments normal]
        exact grown.below.asObjects
      · exact .throw

/-! ## Configurations -/

/-- The document that a text holds. -/
def documentOf (text : String) : Option Document := (readDocument text).toOption.bind (·.1)

theorem showsTrees_of_load {text : String} {c : Configuration} (loaded : load text = .ok c) :
    ShowsTrees c (valuesOf defaultKey (entriesOf text)) (valuesOf environmentsKey (entriesOf text)) := by
  have none : ShowsTrees .empty [] [] := ⟨⟨rfl, rfl, rfl⟩, ⟨rfl, rfl, rfl⟩⟩
  unfold load at loaded
  obtain ⟨⟨root, source⟩, read, loaded⟩ := Outcome.bind_eq_ok.1 loaded
  rw [entriesOf_eq read]
  cases root with
  | none =>
    cases loaded
    exact none
  | some d =>
    dsimp only at loaded
    split at loaded
    · rename_i null
      cases loaded
      cases d with
      | scalar => exact none
      | _ => cases null
    · cases d with
      | mapping line anchor entries =>
        obtain ⟨claimed, done⟩ := Outcome.run'_eq_ok.1 loaded
        exact yields_shown source entries none [] (c, claimed) done
      | _ => cases loaded

theorem tellingsOf_documentOf {text : String} {d : Document} (held : documentOf text = some d) :
    tellingsOf (tokensOf text) = d.tellings := by
  obtain ⟨⟨root, source⟩, read, rfl⟩ := Option.bind_eq_some_iff.1 held
  exact tellings_of_readDocument (Outcome.toOption_eq_some.1 read)

/-- **Loading keeps markers.** Whatever text is accepted: its document tells what its tokens tell, so each anchor and
alias of the text is on the node of the document at which it stands. In the trees every node below the two values
has the markers of its document, an alias its name, and a mapping the names under its merge keys in their order.
A root has the markers of its value iff this has none. -/
theorem markers_of_load {text : String} {c : Configuration} (loaded : load text = .ok c) :
    (∀ d, documentOf text = some d → tellingsOf (tokensOf text) = d.tellings) ∧
      (ValuesShown (valuesOf defaultKey (entriesOf text)) (c.default.top.children.map (·.data)) ∧
        ValuesShown (valuesOf environmentsKey (entriesOf text)) (c.environments.top.children.map (·.data))) ∧
      ∀ value : Document, (value.Marks c.default.top.label.data ↔ value.anchor? = none ∧ value.repeats = []) ∧
        (value.Marks c.environments.top.label.data ↔ value.anchor? = none ∧ value.repeats = []) := by
  obtain ⟨default, environments⟩ := showsTrees_of_load loaded
  refine ⟨fun d => tellingsOf_documentOf, ⟨default.below, environments.below⟩, fun value => ?_⟩
  rw [Document.Marks, Document.Marks, default.anchor, default.aliases, environments.anchor, environments.aliases,
    eq_comm (a := none), eq_comm (a := [])]
  exact ⟨Iff.rfl, Iff.rfl⟩

/-- A document with each kind of marker, and one name that two anchors bear. -/
def marked : String :=
  "default:\n  a: &x\n    k: &y 1\n  b: *x\n  l: [&x 2, *y]\n  m:\n    <<: [*y, *x]\n    n: 3\n    <<: *x\n" ++
    "environments:\n  prod: &z\n    b: *z\n"

theorem markers_of_load_marked : ∃ c, load marked = .ok c ∧
    (tellingsOf (tokensOf marked)).flatMap (·.1) = [.anchor "x", .anchor "y", .alias "x", .anchor "x", .alias "y",
      .alias "y", .alias "x", .alias "x", .anchor "z", .alias "z"] ∧
    (∀ d, documentOf marked = some d → tellingsOf (tokensOf marked) = d.tellings) ∧
      (ValuesShown (valuesOf defaultKey (entriesOf marked)) (c.default.top.children.map (·.data)) ∧
        ValuesShown (valuesOf environmentsKey (entriesOf marked)) (c.environments.top.children.map (·.data))) ∧
      ∀ value : Document, (value.Marks c.default.top.label.data ↔ value.anchor? = none ∧ value.repeats = []) ∧
        (value.Marks c.environments.top.label.data ↔ value.anchor? = none ∧ value.repeats = []) := by
  obtain ⟨c, loaded⟩ : ∃ c, load marked = .ok c := Outcome.isSome_toOption.1 (by decide +kernel)
  exact ⟨c, loaded, by decide +kernel, markers_of_load loaded⟩

/-- A document whose two values have markers themselves. -/
def markedRoots : String := "default: &d\n  a: 1\nenvironments:\n  <<: *d\n"

/-- The markers of the two values stand in the text and are in neither tree. -/
theorem root_markers_lost :
    tellingsOf (tokensOf markedRoots) = [([], .mappingStart),
      ([], .scalar "default" true), ([.anchor "d"], .mappingStart), ([], .scalar "a" true), ([], .scalar "1" true),
      ([], .mappingEnd),
      ([], .scalar "environments" true), ([], .mappingStart), ([], .scalar "<<" true), ([.alias "d"], .alias),
      ([], .mappingEnd), ([], .mappingEnd)] ∧
    ∃ c, load markedRoots = .ok c ∧
      (∃ value ∈ valuesOf defaultKey (entriesOf markedRoots), value.anchor? = some "d" ∧
        c.default.top.label.data.anchor = none) ∧
      ∃ value ∈ valuesOf environmentsKey (entriesOf markedRoots), value.repeats = ["d"] ∧
        c.environments.top.label.data.aliases = [] := by
  obtain ⟨c, loaded⟩ : ∃ c, load markedRoots = .ok c := Outcome.isSome_toOption.1 (by decide +kernel)
  obtain ⟨default, environments⟩ := showsTrees_of_load loaded
  have anchor : some "d" ∈ (valuesOf defaultKey (entriesOf markedRoots)).map anchor? := by decide +kernel
  have merged : ["d"] ∈ (valuesOf environmentsKey (entriesOf markedRoots)).map repeats := by decide +kernel
  obtain ⟨value, here, anchor⟩ := List.mem_map.1 anchor
  obtain ⟨value', there, merged⟩ := List.mem_map.1 merged
  exact ⟨by decide +kernel, c, loaded, ⟨value, here, anchor, default.anchor⟩, value', there, merged,
    environments.aliases⟩

end LayeredConfig.Yaml
