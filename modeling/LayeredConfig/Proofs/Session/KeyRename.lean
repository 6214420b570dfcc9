import LayeredConfig.Proofs.Renaming.Replacing
import LayeredConfig.Proofs.Renaming.Values
import LayeredConfig.Proofs.Session.UniqueKeys
import LayeredConfig.Proofs.Tree.Texts
import Mathlib.Logic.Equiv.Basic

/-!
# Renaming the key of a default property

A default property whose key no other node bears, its overrides apart, is given a new key. The edit
makes the same renaming of both trees, so what it makes of the configuration is the configuration
under a relabelling (`UnambiguousKey.edited`), and every environment that compiled compiles to the
tree it was under the new key (`compile_renamed`).

This takes a property whose own text has no reference to its key. The references in all texts are
renamed first, and then the draft is written over the property, with the text that it had before.
-/

namespace LayeredConfig

namespace Relabelling

variable {m : Markers} {old new : String}

/-- The relabelling that exchanges two keys and turns the references to the one into references to
the other. -/
def exchange (m : Markers) (ho : old ≠ inheritsKey) (hn : new ≠ inheritsKey) : Relabelling where
  key := Equiv.swap old new
  anchor := Equiv.refl String
  text := m.renamedText (Function.update id old new)
  inherits_fixed := Equiv.swap_apply_of_ne_of_ne ho.symm hn.symm

variable {ho : old ≠ inheritsKey} {hn : new ≠ inheritsKey}

/-- What the relabelling does where the new key is free and markers are references only. -/
theorem data_exchange {d : NodeData} (free : d.key ≠ new)
    (only : ∀ text, d.value = some (.string text) → m.OnlyReferences old text.toList) :
    (exchange m ho hn).data d =
      { d.remarked m old new with key := if d.key = old then new else d.key } := by
  obtain ⟨key, type, value, anchor, aliases, comment⟩ := d
  have keys : Equiv.swap old new key = if key = old then new else key := by
    rw [Equiv.swap_apply_def]
    by_cases same : key = old
    · rw [if_pos same, if_pos same]
    · rw [if_neg same, if_neg same, if_neg free]
  have values : value.map (exchange m ho hn).scalar = value.map (.remarked m old new) := by
    rcases value with - | text | b | n
    · rfl
    · exact congrArg (fun t => some (Scalar.string t)) (Markers.getD_renamed? (only text rfl)).symm
    · rfl
    · rfl
  have anchors : anchor.map (Equiv.refl String) = anchor := by cases anchor <;> rfl
  have names : aliases.map (Equiv.refl String) = aliases := List.map_id aliases
  unfold data NodeData.remarked
  dsimp only [exchange] at values ⊢
  rw [keys, values, anchors, names]

/-- The relabelling fits the references that are read. -/
theorem references_exchange (closing : '\n' ∉ m.closing.toList) (marks : m.Marks new)
    (hold : old ≠ environmentName) (hnew : new ≠ environmentName)
    (item : ∀ position, old ≠ itemKey position) :
    (exchange m ho hn).References (Function.update id old new) m where
  closing := closing
  marks name hname := by
    by_cases same : name = old
    · rw [same, Function.update_self]
      exact marks
    · rw [Function.update_of_ne same]
      exact hname
  text := rfl
  environment := Equiv.swap_apply_of_ne_of_ne hold.symm hnew.symm
  environment_agrees := Function.update_of_ne hold.symm _ _
  item position := Function.update_of_ne (item position).symm _ _

theorem update_eq_swap {name : String} (h : name ≠ new) :
    Function.update id old new name = Equiv.swap old new name := by
  by_cases same : name = old
  · rw [same, Function.update_self, Equiv.swap_apply_left]
  · rw [Function.update_of_ne same, Equiv.swap_apply_of_ne_of_ne same h]
    rfl

end Relabelling

/-- The text of a string node. -/
def NodeData.text? (d : NodeData) : Option String := d.value.bind Scalar.string?

theorem NodeData.text?_of_value {d : NodeData} {text : String} (h : d.value = some (.string text)) :
    d.text? = some text := by rw [text?, h]; rfl

/-- The draft that changes the key of a property and nothing else. -/
def Draft.rekeying (live : NodeData) (new : String) : Draft := ⟨{ live with key := new }, .nil⟩

/-- A draft without children whose value fits its type is taken as it is. -/
theorem Draft.sanitized_of_typed {draft : Draft} (leaf : draft.children = .nil)
    (typed : draft.WellTyped) : draft.sanitized = .ok draft := by
  obtain ⟨⟨key, type, value, anchor, aliases, comment⟩, children⟩ := draft
  cases leaf
  unfold sanitized
  dsimp only
  cases container : type.isContainer with
  | true =>
    have none : value = none := typed.of_container container
    rw [if_pos rfl, none]
    split <;> rfl
  | false =>
    rw [if_neg Bool.false_ne_true]
    have scalar : type.isScalar := by
      unfold ValueType.isContainer at container
      simpa using container
    cases value with
    | none => rfl
    | some v =>
      dsimp only
      rw [if_pos ((typed.of_scalar scalar).2 v rfl)]

/-! ## The property -/

namespace Configuration

/-- Every node of both trees holds what its type says. -/
def WellTyped (c : Configuration) : Prop := c.Everywhere Rose.WellTyped

/-- The nodes of both trees. -/
def nodes (c : Configuration) : List Entry := c.default.entries ++ c.environments.entries

/-- The default node `h`, with the data `live`, stands below the root and below no array. No other
node bears its key, its overrides apart, and none bears `new`. The marker of its key occurs in texts
as a reference only, and not where an environment says what it inherits from. -/
structure UnambiguousKey (c : Configuration) (m : Markers) (h : Handle) (live : NodeData)
    (new : String) : Prop where
  known : c.default.data? h = some live
  below : (c.default.parent? h).isSome
  noArray : ∀ e ∈ (c.default.trail h).dropLast, e.data.type ≠ .array
  only : ∀ e ∈ c.default.entries, e.data.key = live.key → e.handle = h
  overrides : ∀ e ∈ c.environments.entries, e.data.key = live.key →
    e.handle ∈ c.environments.overrides (c.default.alignedPath h)
  free : ∀ e ∈ c.nodes, e.data.key ≠ new
  reserved : ∀ key ∈ [live.key, new], key ≠ environmentName ∧ key ≠ inheritsKey
  marked : m.references (m.mark new) = [new]
  texts : ∀ e ∈ c.nodes, ∀ text ∈ e.data.text?, m.OnlyReferences live.key text.toList
  inherits : ∀ r ∈ c.environments.top.children.roots, ∀ e ∈ r.children.rootLabels,
    e.data.key = inheritsKey → ∀ text ∈ e.data.text?, ¬(m.mark live.key).toList <:+: text.toList

namespace UnambiguousKey

variable {c : Configuration} {m : Markers} {h : Handle} {live : NodeData} {new : String}

section

variable (hu : c.UnambiguousKey m h live new)

include hu

theorem mem_entries : (⟨h, live⟩ : Entry) ∈ c.default.entries := by
  obtain ⟨r, hr, same⟩ := Option.map_eq_some_iff.1 hu.known
  have label : r.label = ⟨h, live⟩ := by rw [← same, ← Tree.find?_handle hr]
  rw [← label, Tree.entries, ← Rose.preorder_ofRose]
  exact Forest.mem_preorder_of_mem_subtrees (Tree.find?_mem hr) List.mem_cons_self

theorem key_ne : live.key ≠ new := hu.free ⟨h, live⟩ (List.mem_append_left _ hu.mem_entries)

theorem ne_inherits : live.key ≠ inheritsKey ∧ new ≠ inheritsKey :=
  ⟨(hu.reserved _ List.mem_cons_self).2,
    (hu.reserved _ (List.mem_cons_of_mem _ List.mem_cons_self)).2⟩

theorem marks : m.Marks new :=
  Markers.marks_of_references (by rw [hu.marked]; exact List.mem_cons_self)

/-- The property is a child of a node that is no array. -/
theorem exists_parent (sound : c.Sound) : ∃ r ∈ c.default.forest.subtrees,
    r.label.data.type ≠ .array ∧ (⟨h, live⟩ : Entry) ∈ r.children.rootLabels := by
  obtain ⟨p, hp⟩ := Option.isSome_iff_exists.1 hu.below
  obtain ⟨r, hr, e, he, same⟩ := Tree.mem_children_iff.1 (sound.1.parent?_eq_some_iff.1 hp)
  have inside := Tree.find?_mem hr
  have entry : e = ⟨h, live⟩ := by
    refine sound.1.eq_of_handle (Forest.mem_preorder_of_child inside he) ?_ same
    rw [Tree.forest, Rose.preorder_ofRose]
    exact hu.mem_entries
  rw [entry] at he
  refine ⟨r, inside, hu.noArray r.label ?_, he⟩
  obtain ⟨way, hway⟩ := Forest.trail?_of_mem_children sound.1.distinct inside he
  rw [Tree.trail, hway, Option.getD_some, List.dropLast_append_of_ne_nil (by simp)]
  exact List.mem_append_right _ List.mem_cons_self

theorem alignedPath (sound : c.Sound) :
    ∃ path, c.default.alignedPath h = path ++ [live.key] := by
  obtain ⟨r, hr, object, child⟩ := hu.exists_parent sound
  obtain ⟨path, hpath⟩ := sound.1.alignedPath_concat hr child
  refine ⟨path, hpath.trans ?_⟩
  rw [Tree.alignedKey, if_neg object]

/-- What the draft writes is well-typed, as the property is. -/
theorem rekeying_wellTyped (typed : c.WellTyped) : (Draft.rekeying live new).WellTyped := by
  obtain ⟨r, hr, same⟩ := Option.map_eq_some_iff.1 hu.known
  have there : (r.map (·.data)).WellTyped := Tree.WellTyped.of_find? typed.1 hr
  have label : (r.map (·.data)).label = live := same
  exact there.congr (by rw [label]; rfl) (by rw [label]; rfl) fun _ => rfl

/-- The draft is admitted as it is. -/
theorem admitted (sound : c.Sound) (typed : c.WellTyped) :
    admittedEdit c.default ⟨.default, h⟩ live (.rekeying live new) = .ok (.rekeying live new) := by
  obtain ⟨r, hr, object, child⟩ := hu.exists_parent sound
  have found := sound.1.find?_of_mem hr
  have parent : c.default.parent? h = some r.label.handle := sound.1.parent?_of_child hr child
  have item : c.default.isItem h = false := by
    unfold Tree.isItem Tree.isArray Tree.data?
    rw [parent]
    dsimp only
    rw [found]
    simpa using object
  have free : c.default.child? r.label.handle new = none := by
    refine (Tree.child?_eq_none_iff found).2 fun e he => hu.free e (List.mem_append_left _ ?_)
    rw [Tree.entries, ← Rose.preorder_ofRose]
    exact Forest.mem_preorder_of_child hr he
  unfold admittedEdit
  dsimp only
  rw [parent, item]
  refine Outcome.check_eq_ok.2 ⟨?_, ?_⟩
  · rintro ⟨-, taken⟩
    simp only [Option.isNone_some, Bool.false_eq_true, or_self, if_false] at taken
    rw [show (Draft.rekeying live new).label.key = new from rfl, free] at taken
    cases taken
  · exact Draft.sanitized_of_typed rfl (hu.rekeying_wellTyped typed)

/-- The relabelling that the edit amounts to. -/
def relabelling : Relabelling := .exchange m hu.ne_inherits.1 hu.ne_inherits.2

theorem data_relabelling {e : Entry} (he : e ∈ c.nodes) :
    hu.relabelling.data e.data =
      { e.data.remarked m live.key new with
        key := if e.data.key = live.key then new else e.data.key } :=
  Relabelling.data_exchange (hu.free e he) fun text string =>
    hu.texts e he text (NodeData.text?_of_value string)

theorem wellTyped_tree {t : Tree} (ht : t.WellTyped) : (hu.relabelling.tree t).WellTyped := by
  refine ht.map (g := hu.relabelling.entry) (fun _ => rfl) fun e => ?_
  show (e.data.value.map _).map _ = _
  rw [Option.map_map]
  congr 1
  funext v
  cases v <;> rfl

/-- The environments after their overrides are renamed and then the references. -/
theorem environments_renamed (sound : c.Sound) (typed : c.WellTyped)
    (first : live.key ≠ firstItemKey) :
    let envs := (c.environments.alignOverrides (c.default.alignedPath h) fun t found =>
      t.modify found fun d => { d with key := new }).1
    (envs.renameReferences envs.root m live.key new).1 = hu.relabelling.tree c.environments := by
  intro envs
  have rekeyed : envs = { c.environments with
      top := c.environments.top.map fun e =>
        if e.data.key = live.key then { e with data := { e.data with key := new } } else e } := by
    refine (Tree.foldl_modify (f := fun d => { d with key := new }) (Or.inr fun _ => rfl) _).trans
      (Tree.map_top_congr fun e he => ?_)
    have overridden : e.handle ∈ c.environments.overrides (c.default.alignedPath h) ↔
        e.data.key = live.key := by
      constructor
      · intro ho
        obtain ⟨path, hpath⟩ := hu.alignedPath sound
        rw [hpath] at ho
        obtain ⟨e', he', same, key⟩ := Tree.key_of_override first ho
        rw [← sound.2.eq_of_handle he' he same]
        exact key
      · rw [Tree.forest, Rose.preorder_ofRose] at he
        exact hu.overrides e he
    simp only [overridden]
  have sound' : envs.Sound :=
    List.foldlRecOn (motive := Tree.Sound) _ _ sound.2 fun _ ht h _ => ht.modify h _
  have typed' : envs.WellTyped := by
    rw [rekeyed]
    refine Tree.WellTyped.map typed.2 (fun e => ?_) fun e => ?_ <;> split <;> rfl
  rw [typed'.renameReferences_root sound', rekeyed, Tree.modifyAll, Relabelling.tree, Tree.modifyAll]
  dsimp only
  rw [Rose.map_map]
  refine Tree.map_top_congr fun e he => ?_
  rw [Tree.forest, Rose.preorder_ofRose] at he
  have data := hu.data_relabelling (List.mem_append_right _ he)
  rw [Function.comp_apply]
  by_cases same : e.data.key = live.key
  · rw [if_pos same] at data ⊢
    rw [data]
    rfl
  · rw [if_neg same] at data ⊢
    rw [data]
    rfl

/-- The default tree after its references are renamed and then the draft is written. -/
theorem default_renamed (sound : c.Sound) (typed : c.WellTyped)
    (own : ∀ text ∈ live.text?, live.key ∉ m.references text) :
    writeDraft (c.default.renameReferences c.default.root m live.key new).1 h
        (.rekeying live new) = hu.relabelling.tree c.default := by
  have kept : live.remarked m live.key new = live := by
    refine NodeData.remarked_eq_self fun text string => ?_
    have string := NodeData.text?_of_value string
    rw [Markers.getD_renamed?
      (hu.texts ⟨h, live⟩ (List.mem_append_left _ hu.mem_entries) text string)]
    refine Markers.renamedText_eq_self fun name hname => Function.update_of_ne ?_ _ _
    rintro rfl
    exact own text string hname
  have written : (c.default.modifyAll (.remarked m live.key new)).modify h
      (fun _ => (Draft.rekeying live new).label) = hu.relabelling.tree c.default := by
    unfold Tree.modifyAll Tree.modify Relabelling.tree Tree.modifyAll Rose.relabel
    dsimp only
    rw [Rose.map_map]
    refine Tree.map_top_congr fun e he => ?_
    rw [Tree.forest, Rose.preorder_ofRose] at he
    have data := hu.data_relabelling (List.mem_append_left _ he)
    rw [Function.comp_apply]
    by_cases same : e.handle = h
    · have entry : e = ⟨h, live⟩ := by
        refine sound.1.eq_of_handle ?_ ?_ same <;> rw [Tree.forest, Rose.preorder_ofRose]
        exacts [he, hu.mem_entries]
      subst entry
      rw [if_pos rfl, kept] at data
      rw [if_pos (beq_self_eq_true _), data]
      rfl
    · have other : e.data.key ≠ live.key := fun key => same (hu.only e he key)
      rw [if_neg other] at data
      rw [if_neg (by simpa using same), data]
      rfl
  have typed' := hu.wellTyped_tree typed.1
  have sound' : (hu.relabelling.tree c.default).Sound :=
    sound.1.map (g := hu.relabelling.entry) fun _ => rfl
  unfold writeDraft
  rw [Tree.WellTyped.renameReferences_root typed.1 sound.1, written]
  dsimp only
  split
  · rename_i scalar
    refine sound'.clear_of_isLeaf ?_
    obtain ⟨r, hr, same⟩ := Option.map_eq_some_iff.1 hu.known
    have found : (hu.relabelling.tree c.default).find? h =
        some (r.map hu.relabelling.entry) := by
      rw [Relabelling.find?_tree, hr, Option.map_some]
    refine typed'.isLeaf found ?_
    show r.label.data.type.isScalar
    rw [same]
    exact scalar
  · rfl

/-- The edit puts the whole configuration under the relabelling. -/
theorem edited (sound : c.Sound) (typed : c.WellTyped)
    (own : ∀ text ∈ live.text?, live.key ∉ m.references text)
    (first : live.key ≠ firstItemKey) :
    c.edited ⟨.default, h⟩ live (.rekeying live new) m = hu.relabelling.configuration c := by
  have anchors : ∀ c' : Configuration,
      c'.alignAnchor live.anchor (Draft.rekeying live new).label.anchor = c' := by
    intro c'
    rw [show (Draft.rekeying live new).label.anchor = live.anchor from rfl]
    cases live.anchor with
    | none => rfl
    | some a => exact if_neg (not_not.2 rfl)
  have key : c.default.key? h = some live.key := by rw [Tree.key?, hu.known, Option.map_some]
  have aligned : c.alignEdit ⟨.default, h⟩ live (Draft.rekeying live new).label m =
      (c.alignKeyRename h new m).1 := by
    unfold alignEdit
    exact (if_pos ⟨rfl, hu.below⟩).trans ((if_neg (not_not.2 rfl)).trans (if_pos hu.key_ne))
  have environments := hu.environments_renamed sound typed first
  have default := hu.default_renamed sound typed own
  rw [Configuration.edited, anchors, aligned, alignKeyRename, key, Relabelling.configuration,
    ← environments, ← default]
  rfl

/-- Neither the environments nor what they inherit from are renamed. -/
theorem keepsLineages (sound : c.Sound) : hu.relabelling.KeepsLineages c where
  names e he := by
    have inside : e ∈ c.environments.entries :=
      List.mem_cons_of_mem _ (Forest.mem_preorder_of_mem_rootLabels he)
    refine Equiv.swap_apply_of_ne_of_ne (fun same => ?_) (hu.free e (List.mem_append_right _ inside))
    exact sound.2.not_mem_overrides_of_root (hu.overrides e inside same) (List.mem_map_of_mem he)
  inherits r hr e he key := by
    rcases Scalar.string_or_other e.data.value with ⟨text, string⟩ | other
    · have absent := hu.inherits r hr e he key text (NodeData.text?_of_value string)
      rw [string]
      refine congrArg (fun t => some (Scalar.string t)) (Markers.renamedText_eq_self fun name hname => ?_)
      refine Function.update_of_ne ?_ _ _
      rintro rfl
      exact absent (Markers.isInfix_mark (by rwa [String.ofList_toList]))
    · exact Relabelling.scalar_eq_self _ other

end

end UnambiguousKey

end Configuration

/-! ## The edit -/

namespace Session

variable {s : Session} {h : Handle} {live : NodeData} {new : String}

/-- **A key renamed.** The key of a default property that stands for the property and its overrides
only, and to which the property's own text does not refer, is committed under a free name. Every
environment that compiled compiles to the same tree with the key replaced. -/
theorem compile_renamed (sound : s.config.Sound) (typed : s.config.WellTyped)
    (hu : s.config.UnambiguousKey s.markers h live new)
    (composing : ∃ p, s.state = .composing p ∧ p.editing = true ∧ p.node = ⟨.default, h⟩)
    (own : ∀ text ∈ live.text?, live.key ∉ s.markers.references text)
    (closing : '\n' ∉ s.markers.closing.toList) (item : ∀ position, live.key ≠ itemKey position) :
    ∃ s', s.commit (.rekeying live new) = (.ok ⟨.default, h⟩, s') ∧
      ∀ environment t, s.config.compile s.markers environment = .ok t →
        s'.config.compile s.markers environment =
          .ok (t.rekeyed (Function.update id live.key new)) := by
  obtain ⟨p, state, editing, node⟩ := composing
  have run : Editing.apply (if p.editing then Configuration.edit p.node (.rekeying live new) s.markers
      else Configuration.addBelow p.node (.rekeying live new)) s.config =
      (.ok ⟨.default, h⟩, hu.relabelling.configuration s.config) := by
    rw [editing, node, ← hu.edited sound typed own (item 0)]
    exact Configuration.edit_of_admitted rfl hu.known (hu.admitted sound typed)
  refine ⟨_, commit_of_composing state _ run, fun environment t compiled => ?_⟩
  have refs : hu.relabelling.References (Function.update id live.key new) s.markers :=
    Relabelling.references_exchange closing hu.marks (hu.reserved _ List.mem_cons_self).1
      (hu.reserved _ (List.mem_cons_of_mem _ List.mem_cons_self)).1 item
  refine refs.compile (hu.keepsLineages sound) sound.2
    (Relabelling.update_eq_swap hu.marks.ne_empty.symm) ?_ compiled
  have keys : ∀ t : Tree, (∀ e ∈ t.entries, e ∈ s.config.nodes) →
      (t.top.map (·.data)).Everywhere fun n =>
        Function.update id live.key new n.label.key = Equiv.swap live.key new n.label.key := by
    intro t inside
    rw [Rose.everywhere_map]
    exact (Rose.everywhere_label (p := fun e : Entry =>
      Function.update id live.key new e.data.key = Equiv.swap live.key new e.data.key)).2
        fun e he => Relabelling.update_eq_swap (hu.free e (inside e he))
  exact ⟨keys _ fun e he => List.mem_append_left _ he,
    keys _ fun e he => List.mem_append_right _ he⟩

/-- A default property that another refers to, and an environment that overrides it. -/
def overriddenHost : Session where
  config :=
    { default := .ofDrafts .default <|
        .cons (.ofScalar "host" (.string "local")) .nil <|
        .cons (.ofScalar "url" (.string "http://$\x7bhost\x7d/")) .nil .nil
      environments := .ofDrafts .environments <|
        .cons { key := "prod" } (.cons (.ofScalar "host" (.string "db")) .nil .nil) .nil }
  markers := .standard
  known := []
  state := .composing ⟨true, false, [], ⟨.default, 1⟩, 0⟩

theorem itemKey_ne {key : String} (h : key.toList.head? ≠ some '[') (position : Nat) :
    key ≠ itemKey position := by
  rintro rfl
  refine h ?_
  simp only [itemKey, String.toList_append, List.append_assoc]
  rfl

theorem compile_renamed_override :
    ∃ s' t,
      overriddenHost.commit (.rekeying (.ofScalar "host" (.string "local")) "hostname") =
        (.ok ⟨.default, 1⟩, s') ∧
      overriddenHost.config.compile .standard "prod" = .ok t ∧
      s'.config.compile .standard "prod" =
        .ok (t.rekeyed (Function.update id "host" "hostname")) := by
  have unambiguous : overriddenHost.config.UnambiguousKey .standard 1
      (.ofScalar "host" (.string "local")) "hostname" :=
    { known := by decide +kernel
      below := by decide +kernel
      noArray := by decide +kernel
      only := by decide +kernel
      overrides := by decide +kernel
      free := by decide +kernel
      reserved := by decide +kernel
      marked := by decide +kernel
      texts := by decide +kernel
      inherits := by decide +kernel }
  obtain ⟨t, compiled⟩ := Outcome.isSome_toOption.1
    (by decide +kernel : (overriddenHost.config.compile .standard "prod").toOption.isSome)
  obtain ⟨s', committed, kept⟩ := compile_renamed (s := overriddenHost) (by decide +kernel)
    ⟨by decide +kernel, by decide +kernel⟩ unambiguous ⟨_, rfl, rfl, rfl⟩ (by decide +kernel)
    (by decide +kernel) (itemKey_ne (by decide +kernel))
  exact ⟨s', t, committed, compiled, kept "prod" t compiled⟩

/-- A default property whose text refers to its own key, and an alias of it elsewhere. -/
def ownReference : Session where
  config :=
    { default := .ofDrafts .default <|
        .cons { NodeData.ofScalar "host" (.string "x-$\x7bhost\x7d") with anchor := "h" } .nil <|
        .cons (.ofScalar "name" (.string "plain")) .nil <|
        .cons { key := "sub" } (.cons { key := "name", type := .string, aliases := ["h"] } .nil .nil)
          .nil
      environments := .ofDrafts .environments <|
        .cons { key := "prod" }
          (.cons (.ofScalar "host" (.string "$\x7bname\x7d!")) .nil .nil) .nil }
  markers := .standard
  known := []
  state := .composing ⟨true, false, [], ⟨.default, 1⟩, 0⟩

/-- The reference in the property's own text is left behind, and `prod` compiles no longer. -/
theorem dangling_ownReference :
    let live : NodeData :=
      { NodeData.ofScalar "host" (.string "x-$\x7bhost\x7d") with anchor := "h" }
    ownReference.config.Sound ∧ ownReference.config.UniqueKeys ∧ ownReference.config.WellTyped ∧
      ownReference.config.UnambiguousKey .standard 1 live "hostname" ∧
      (ownReference.config.compile .standard "prod").toOption.isSome ∧
      (ownReference.commit (.rekeying live "hostname")).1 = .ok ⟨.default, 1⟩ ∧
      ((ownReference.commit (.rekeying live "hostname")).2.config.compile .standard
        "prod").toOption = none := by
  refine ⟨by decide +kernel, by decide +kernel, ⟨by decide +kernel, by decide +kernel⟩, ?_,
    by decide +kernel, by decide +kernel, by decide +kernel⟩
  exact
    { known := by decide +kernel
      below := by decide +kernel
      noArray := by decide +kernel
      only := by decide +kernel
      overrides := by decide +kernel
      free := by decide +kernel
      reserved := by decide +kernel
      marked := by decide +kernel
      texts := by decide +kernel
      inherits := by decide +kernel }

end Session

end LayeredConfig
