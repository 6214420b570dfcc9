import LayeredConfig.Proofs.Renaming.Anchors
import LayeredConfig.Proofs.Session.KeyRename

/-!
# Renaming the anchor of a node

A node whose anchor no other node declares is given an anchor that no node declares or repeats. The
edit exchanges the two names in the anchors and aliases of both trees
(`UnsharedAnchor.edited`), so every environment compiles as before (`compile_reanchored_node`).
-/

namespace LayeredConfig

/-- The draft that changes the anchor of a node and nothing else. -/
def Draft.reanchoring (live : NodeData) (new : String) : Draft := ⟨{ live with anchor := some new }, .nil⟩

/-- Where `new` is no alias, renaming the alias `old` exchanges the two names. -/
theorem renameInList_eq_map {old new : String} {aliases : List String} (free : new ∉ aliases) :
    renameInList old new aliases = aliases.map (Equiv.swap old new) := by
  rw [renameInList, if_neg (by simpa using free)]
  refine List.map_congr_left fun a ha => ?_
  have other : a ≠ new := by
    rintro rfl
    exact free ha
  rw [Equiv.swap_apply_def, if_neg other]

theorem map_swap_eq_self {old new : String} {names : List String} (absent : old ∉ names)
    (free : new ∉ names) : names.map (Equiv.swap old new) = names := by
  have kept : ∀ a ∈ names, Equiv.swap old new a = id a := by
    intro a ha
    refine Equiv.swap_apply_of_ne_of_ne ?_ ?_ <;> rintro rfl
    exacts [absent ha, free ha]
  rw [List.map_congr_left kept, List.map_id]

namespace Tree

variable {t : Tree} {old new : String}

/-- Aliases follow an anchor that was given a free name: with the anchor itself renamed, the two
names are exchanged in the whole tree. -/
theorem renameAlias_eq_tree {g : Entry → Entry} (free : ∀ e ∈ t.entries, new ∉ e.data.aliases)
    (same : ∀ e ∈ t.entries, (g e).handle = e.handle ∧
      (g e).data = { e.data with anchor := e.data.anchor.map (Equiv.swap old new) }) :
    (renameAlias { t with top := t.top.map g } old new).1 =
      (Relabelling.reanchoring (Equiv.swap old new)).tree t := by
  unfold renameAlias Relabelling.tree modifyAll
  dsimp only
  rw [Rose.map_map]
  refine map_top_congr fun e he => ?_
  rw [Tree.forest, Rose.preorder_ofRose] at he
  obtain ⟨handle, data⟩ := same e he
  rw [Function.comp_apply, Relabelling.data_reanchoring, handle, data]
  dsimp only
  by_cases repeated : old ∈ e.data.aliases
  · rw [if_pos (by simpa using repeated), renameInList_eq_map (free e he)]
  · rw [if_neg (by simpa using repeated), map_swap_eq_self repeated (free e he)]

end Tree

namespace Configuration

/-- The node `n`, with the data `live`, is the only one to declare the anchor `old`, and no node
declares or repeats `new`. -/
structure UnsharedAnchor (c : Configuration) (n : NodeRef) (live : NodeData) (old new : String) :
    Prop where
  known : c.data? n = some live
  declared : live.anchor = some old
  only : ∀ x ∈ c.refs, ∀ d ∈ c.data? x, d.anchor = some old → x = n
  free : ∀ x ∈ c.refs, ∀ d ∈ c.data? x, d.anchor ≠ some new ∧ new ∉ d.aliases

/-- The nodes of a tree are those that references name. -/
theorem data?_of_mem_entries {c : Configuration} {t : Tree} {kind : TreeKind} (sound : c.Sound)
    (ht : c.tree? kind = some t) {e : Entry} (he : e ∈ t.entries) :
    (⟨kind, e.handle⟩ : NodeRef) ∈ c.refs ∧ c.data? ⟨kind, e.handle⟩ = some e.data := by
  have inside : e ∈ t.forest.preorder := by rwa [Tree.forest, Rose.preorder_ofRose]
  have data : t.Sound → c.data? ⟨kind, e.handle⟩ = some e.data := fun ht' =>
    (data?_of_tree? ht).trans (ht'.data?_of_mem inside)
  cases kind with
  | default =>
    cases ht
    exact ⟨List.mem_append_left _ (List.mem_map_of_mem he), data sound.1⟩
  | environments =>
    cases ht
    exact ⟨List.mem_append_right _ (List.mem_map_of_mem he), data sound.2⟩
  | detached => cases ht

theorem WellTyped.tree {c : Configuration} {t : Tree} {kind : TreeKind} (typed : c.WellTyped)
    (ht : c.tree? kind = some t) : t.WellTyped := of_both (P := Tree.WellTyped) typed.1 typed.2 ht

namespace UnsharedAnchor

variable {c : Configuration} {n : NodeRef} {live : NodeData} {old new : String} {t : Tree}
  {kind : TreeKind} {m : Markers}

section

variable (hu : c.UnsharedAnchor n live old new)

include hu

theorem exists_tree : ∃ t, c.tree? n.tree = some t ∧ t.data? n.handle = some live :=
  Option.bind_eq_some_iff.1 hu.known

theorem reanchoring_wellTyped (typed : c.WellTyped) : (Draft.reanchoring live new).WellTyped := by
  obtain ⟨t, ht, hd⟩ := hu.exists_tree
  obtain ⟨r, hr, same⟩ := Option.map_eq_some_iff.1 hd
  have there : (r.map (·.data)).WellTyped := (typed.tree ht).of_find? hr
  have label : (r.map (·.data)).label = live := same
  exact there.congr (by rw [label]; rfl) (by rw [label]; rfl) fun _ => rfl

/-- The draft is admitted as it is. -/
theorem admitted (typed : c.WellTyped) (t : Tree) :
    admittedEdit t n live (.reanchoring live new) = .ok (.reanchoring live new) := by
  have sanitized := Draft.sanitized_of_typed rfl (hu.reanchoring_wellTyped typed)
  unfold admittedEdit
  simp only [Draft.reanchoring, ite_self] at sanitized ⊢
  cases t.parent? n.handle with
  | none => exact sanitized
  | some p => exact Outcome.check_eq_ok.2 ⟨fun taken => taken.1 rfl, sanitized⟩

/-- At the node the anchor is exchanged by the draft; at other nodes there is nothing to exchange. -/
theorem data_reanchored (sound : c.Sound) (ht : c.tree? kind = some t) {e : Entry}
    (he : e ∈ t.entries) :
    (if (⟨kind, e.handle⟩ : NodeRef) = n then (Draft.reanchoring live new).label else e.data) =
      { e.data with anchor := e.data.anchor.map (Equiv.swap old new) } := by
  obtain ⟨known, data⟩ := data?_of_mem_entries sound ht he
  by_cases here : (⟨kind, e.handle⟩ : NodeRef) = n
  · have same : e.data = live := Option.some.inj (data.symm.trans (here ▸ hu.known))
    rw [if_pos here, same, hu.declared, Option.map_some, Equiv.swap_apply_left]
    rfl
  · have absent : e.data.anchor ≠ some old := fun h => here (hu.only _ known _ data h)
    have free := (hu.free _ known _ data).1
    have kept : e.data.anchor.map (Equiv.swap old new) = e.data.anchor := by
      cases h : e.data.anchor with
      | none => rfl
      | some a =>
        rw [h] at absent free
        exact congrArg some (Equiv.swap_apply_of_ne_of_ne (fun same => absent (same ▸ rfl))
          fun same => free (same ▸ rfl))
    rw [if_neg here, kept]

theorem free_aliases (sound : c.Sound) (ht : c.tree? kind = some t) {e : Entry}
    (he : e ∈ t.entries) : new ∉ e.data.aliases := by
  obtain ⟨known, data⟩ := data?_of_mem_entries sound ht he
  exact (hu.free _ known _ data).2

/-- The tree of the node after the draft is written and the aliases follow. -/
theorem renamed_written (sound : c.Sound) (typed : c.WellTyped) (ht : c.tree? n.tree = some t)
    (hd : t.data? n.handle = some live) :
    ((writeDraft t n.handle (.reanchoring live new)).renameAlias old new).1 =
      (Relabelling.reanchoring (Equiv.swap old new)).tree t := by
  have written : writeDraft t n.handle (.reanchoring live new) =
      t.modify n.handle fun _ => (Draft.reanchoring live new).label := by
    rw [writeDraft_leaf rfl]
    split
    · rename_i scalar
      obtain ⟨r, hr, same⟩ := Option.map_eq_some_iff.1 hd
      have leaf : t.isLeaf n.handle := (typed.tree ht).isLeaf hr (by rw [same]; exact scalar)
      rw [← Tree.clear_modify, (sound.tree ht).clear_of_isLeaf leaf]
    · rfl
  rw [written]
  refine Tree.renameAlias_eq_tree (fun e he => hu.free_aliases sound ht he) fun e he => ?_
  have data := hu.data_reanchored sound ht he
  have here : (⟨n.tree, e.handle⟩ : NodeRef) = n ↔ e.handle = n.handle :=
    ⟨congrArg NodeRef.handle, fun same => by rw [same]⟩
  simp only [here] at data
  by_cases same : e.handle = n.handle
  · rw [if_pos same] at data
    rw [if_pos (by simpa using same)]
    exact ⟨rfl, data⟩
  · rw [if_neg same] at data
    rw [if_neg (by simpa using same)]
    exact ⟨rfl, data⟩

/-- The other tree after the aliases follow. -/
theorem renamed_other (sound : c.Sound) (ht : c.tree? kind = some t) (other : kind ≠ n.tree) :
    (t.renameAlias old new).1 = (Relabelling.reanchoring (Equiv.swap old new)).tree t := by
  have kept := Tree.renameAlias_eq_tree (g := id) (fun e he => hu.free_aliases sound ht he)
    fun e he => by
      have data := hu.data_reanchored sound ht he
      rw [if_neg fun same => other (congrArg NodeRef.tree same)] at data
      exact ⟨rfl, data⟩
  rwa [Rose.map_id] at kept

/-- The edit exchanges the two names in the whole configuration. -/
theorem edited (sound : c.Sound) (typed : c.WellTyped) :
    c.edited n live (.reanchoring live new) m =
      (Relabelling.reanchoring (Equiv.swap old new)).configuration c := by
  obtain ⟨t, ht, hd⟩ := hu.exists_tree
  have different : old ≠ new := by
    rintro rfl
    obtain ⟨e, he, same⟩ : ∃ e ∈ t.entries, e.data = live := by
      obtain ⟨r, hr, same⟩ := Option.map_eq_some_iff.1 hd
      refine ⟨r.label, ?_, same⟩
      rw [Tree.entries, ← Rose.preorder_ofRose]
      exact Forest.mem_preorder_of_mem_subtrees (Tree.find?_mem hr) List.mem_cons_self
    obtain ⟨known, data⟩ := data?_of_mem_entries sound ht he
    exact (hu.free _ known _ data).1 (same ▸ hu.declared)
  have aligned : c.alignEdit n live (Draft.reanchoring live new).label m = c := by
    unfold alignEdit
    simp [Draft.reanchoring]
  have written := hu.renamed_written sound typed ht hd
  have others : ∀ kind t, c.tree? kind = some t → kind ≠ n.tree →
      (t.renameAlias old new).1 = (Relabelling.reanchoring (Equiv.swap old new)).tree t :=
    fun _ _ => hu.renamed_other sound
  rw [Configuration.edited, aligned, hu.declared]
  change (if old ≠ new then (alignAnchorRename _ old new).1 else _) = _
  rw [if_pos different]
  unfold alignAnchorRename Relabelling.configuration
  obtain ⟨kind, h⟩ := n
  cases kind with
  | default =>
    cases ht
    exact congrArg₂ Configuration.mk written (others .environments _ rfl (by simp))
  | environments =>
    cases ht
    exact congrArg₂ Configuration.mk (others .default _ rfl (by simp)) written
  | detached => cases ht

end

end UnsharedAnchor

end Configuration

/-! ## The edit -/

namespace Session

variable {s : Session} {n : NodeRef} {live : NodeData} {old new : String}

/-- **An anchor renamed.** The anchor of a node of either tree, declared by no other node, is
committed under a name that no node declares or repeats. Exactly the environments that compiled
before compile, to equal trees. -/
theorem compile_reanchored_node (sound : s.config.Sound) (typed : s.config.WellTyped)
    (hu : s.config.UnsharedAnchor n live old new)
    (composing : ∃ p, s.state = .composing p ∧ p.editing = true ∧ p.node = n) :
    ∃ s', s.commit (.reanchoring live new) = (.ok n, s') ∧
      ∀ m environment t,
        s'.config.compile m environment = .ok t ↔ s.config.compile m environment = .ok t := by
  obtain ⟨p, state, editing, rfl⟩ := composing
  obtain ⟨t, ht, hd⟩ := hu.exists_tree
  have run : Editing.apply (if p.editing then
        Configuration.edit p.node (.reanchoring live new) s.markers
      else Configuration.addBelow p.node (.reanchoring live new)) s.config =
      (.ok p.node, (Relabelling.reanchoring (Equiv.swap old new)).configuration s.config) := by
    rw [editing, ← hu.edited sound typed]
    exact Configuration.edit_of_admitted ht hd (hu.admitted typed t)
  exact ⟨_, commit_of_composing state _ run,
    fun _ _ _ => Relabelling.compile_reanchored_iff sound.2⟩

/-- An anchor in an environment, repeated in the default tree, and what compiles from it. -/
def sharedCredentials : Session where
  config :=
    { default := .ofDrafts .default <|
        .cons { key := "db", aliases := ["creds"] }
          (.cons (.ofScalar "port" (.number (.int 5432))) .nil .nil) .nil
      environments := .ofDrafts .environments <|
        .cons { key := "prod" }
          (.cons { key := "auth", anchor := "creds" }
            (.cons (.ofScalar "user" (.string "admin")) .nil .nil) .nil) .nil }
  markers := .standard
  known := []
  state := .composing ⟨true, false, [], ⟨.environments, 2⟩, 0⟩

theorem compile_reanchored_node_credentials :
    ∃ s' t,
      sharedCredentials.commit (.reanchoring { key := "auth", anchor := "creds" } "secrets") =
        (.ok ⟨.environments, 2⟩, s') ∧
      sharedCredentials.config.compile .standard "prod" = .ok t ∧
      s'.config.compile .standard "prod" = .ok t := by
  have unshared : sharedCredentials.config.UnsharedAnchor ⟨.environments, 2⟩
      { key := "auth", anchor := "creds" } "creds" "secrets" :=
    { known := by decide +kernel
      declared := rfl
      only := by decide +kernel
      free := by decide +kernel }
  obtain ⟨t, compiled⟩ := Outcome.isSome_toOption.1
    (by decide +kernel : (sharedCredentials.config.compile .standard "prod").toOption.isSome)
  obtain ⟨s', committed, kept⟩ := compile_reanchored_node (s := sharedCredentials)
    (by decide +kernel) ⟨by decide +kernel, by decide +kernel⟩ unshared ⟨_, rfl, rfl, rfl⟩
  exact ⟨s', t, committed, compiled, (kept .standard "prod" t).2 compiled⟩

end Session

end LayeredConfig
