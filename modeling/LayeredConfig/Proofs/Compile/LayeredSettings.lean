import LayeredConfig.Proofs.Compile.Lineage
import LayeredConfig.Proofs.Compile.Literal
import LayeredConfig.Proofs.Compile.Overlaid

/-!
# The most derived layer wins

Layers merge as the keys and values that they say (`Rose.settings_overlay`), because an overlay that goes
through the upper entries and one that goes through the lower entries meet the same pairs
(`Forest.cons_overlay`). So without aliases and references an environment compiles to the default tree
with the environments of its lineage put over it, key by key.

Main statement: `Configuration.compile_eq_overlaid`.
-/

namespace LayeredConfig

/-! ## Merged layers -/

namespace Forest

theorem cons_overlay_of_not_mem {l : Layered} {cs ss upper : Forest Layered}
    (h : l.key ∉ upper.rootKeys Layered.key) :
    (Forest.cons l cs ss).overlay upper = .cons l cs (ss.overlay upper) := by
  induction upper generalizing ss with
  | nil => rfl
  | cons u ucs uss _ ih =>
    rw [rootKeys_cons, List.mem_cons, not_or] at h
    have key := key_onto_findRoot? ss ⟨u, ucs⟩
    rw [overlay_cons, overlay_cons, findRoot?_cons, if_neg h.1, putRoot, key, if_neg h.1, ih h.2]

theorem nil_overlay {upper : Forest Layered} (hu : (upper.rootKeys Layered.key).Nodup) :
    Forest.nil.overlay upper = upper := by
  induction upper with
  | nil => rfl
  | cons u ucs uss _ ih =>
    obtain ⟨new, hss⟩ := List.nodup_cons.1 hu
    rw [overlay_cons]
    show (Forest.cons u ucs .nil).overlay uss = _
    rw [cons_overlay_of_not_mem new, ih hss]

/-- Where upper keys are distinct, the upper entry of its key is put over the first lower entry, and the
others over the other ones. -/
theorem cons_overlay {upper : Forest Layered} (hu : (upper.rootKeys Layered.key).Nodup) (l : Layered)
    (cs ss : Forest Layered) :
    (Forest.cons l cs ss).overlay upper =
      .ofRose (match upper.findRoot? (Layered.key · == l.key) with
        | some u => (⟨l, cs⟩ : Rose Layered).overlay u
        | none => ⟨l, cs⟩) ++
        ss.overlay (upper.filterRoots (Layered.key · != l.key)) := by
  induction upper generalizing ss with
  | nil => rfl
  | cons u ucs uss _ ih =>
    obtain ⟨new, hss⟩ := List.nodup_cons.1 hu
    rw [overlay_cons, findRoot?_cons, findRoot?_cons, filterRoots]
    by_cases same : u.key = l.key
    · have others : uss.filterRoots (Layered.key · != l.key) = uss := by
        refine filterRoots_eq_self fun r hr => bne_iff_ne.2 fun again => new ?_
        exact mem_rootKeys.2 ⟨r, hr, again.trans same.symm⟩
      have put : ((⟨l, cs⟩ : Rose Layered).overlay ⟨u, ucs⟩).label.key = l.key := Rose.under_key l u
      rw [if_pos same.symm, if_pos same, if_neg (by simpa using same), others]
      show (putRoot Layered.key ((⟨l, cs⟩ : Rose Layered).overlay ⟨u, ucs⟩) (.cons l cs ss)).overlay uss = _
      rw [putRoot, if_pos put.symm, cons_overlay_of_not_mem (by rwa [put, ← same])]
      rfl
    · have key := key_onto_findRoot? ss ⟨u, ucs⟩
      rw [if_neg (Ne.symm same), if_neg same, if_pos (by simpa using same), putRoot, key,
        if_neg (Ne.symm same), ih hss, overlay_cons]

end Forest

/-- A node of merged layers in which keys do not repeat and a scalar has a value. -/
def Rose.Orderly (n : Rose Layered) : Prop := n.Keyed ∧ n.ScalarLeaf

namespace Rose

variable {l u : Rose Layered}

theorem orderly_kept :
    KeptByLayers (fun n => (n.children.rootKeys NodeData.key).Nodup) Orderly where
  single n hn := ⟨keyed_kept.single n hn, scalarLeaf_kept.single n trivial⟩
  missing := ⟨keyed_kept.missing, scalarLeaf_kept.missing⟩
  without n hn := ⟨keyed_kept.without n hn.1, scalarLeaf_kept.without n hn.2⟩
  overlay l u hl hu := ⟨keyed_kept.overlay l u hl.1 hu.1, scalarLeaf_kept.overlay l u hl.2 hu.2⟩

theorem setting_under (hu : u.ScalarLeaf) :
    (l.label.under u.label).setting =
      { l.label.setting with content := u.label.setting.content } := by
  have key := under_key l.label u.label
  have shape := shape_under l.label u.label
  unfold Layered.setting
  rw [key, shape]
  cases hl : l.label.shape <;> cases shape : u.label.shape <;> simp only
  rename_i lower upper
  have value := (hu upper shape).1
  rw [List.getLast?_append, List.getLast?_eq_some_getLast value]
  rfl

/-- What two trees say together is what they say apart, overlaid, if that is so of what is below. -/
theorem settings_overlay_of_children (hu : u.Orderly)
    (below : u.label.shape = .object → (l.children.overlay u.children).map Layered.setting =
      (l.children.map Layered.setting).overlaid (u.children.map Layered.setting)) :
    (l.overlay u).map Layered.setting = (l.map Layered.setting).overlaid (u.map Layered.setting) := by
  unfold overlay overlaid map
  rw [setting_under hu.2]
  simp only [Layered.content_eq_object]
  by_cases both : l.label.shape = .object ∧ u.label.shape = .object
  · rw [if_pos both, if_pos both, below both.2]
  · rw [if_neg both, if_neg both]

end Rose

theorem Forest.settings_overlay {lower upper : Forest Layered}
    (distinct : (upper.rootKeys Layered.key).Nodup) (hu : upper.Everywhere Rose.Orderly) :
    (lower.overlay upper).map Layered.setting =
      (lower.map Layered.setting).overlaid (upper.map Layered.setting) := by
  induction lower generalizing upper with
  | nil => rw [nil_overlay distinct, map, overlaid]
  | cons l cs ss ihc ihs =>
    have rest := ihs (nodup_rootKeys_filterRoots distinct (Layered.key · != l.key))
      (hu.filterRoots (Layered.key · != l.key))
    have upperEntry : (upper.map Layered.setting).findRoot? (Setting.key · == l.setting.key) =
        (upper.findRoot? (Layered.key · == l.key)).map (Rose.map Layered.setting) :=
      findRoot?_map (fun _ => rfl) upper
    have upperRest : (upper.map Layered.setting).filterRoots (Setting.key · != l.setting.key) =
        (upper.filterRoots (Layered.key · != l.key)).map Layered.setting :=
      filterRoots_map (fun _ => rfl) upper
    rw [cons_overlay distinct, map_append, rest, map, overlaid_cons, upperEntry, upperRest,
      ← Rose.ofRose_map]
    cases found : upper.findRoot? (Layered.key · == l.key) with
    | none => rfl
    | some u =>
      have orderly := everywhere_iff_roots.1 hu u (findRoot?_mem found)
      have here := Rose.settings_overlay_of_children (l := ⟨l, cs⟩) orderly.1 fun object =>
        ihc (orderly.1.1 object) orderly.2
      rw [here]
      rfl

/-- **Layers merge as their keys and values do.** -/
theorem Rose.settings_overlay {l u : Rose Layered} (hu : u.Everywhere Orderly) :
    (l.overlay u).map Layered.setting = (l.map Layered.setting).overlaid (u.map Layered.setting) :=
  settings_overlay_of_children hu.1 fun object => Forest.settings_overlay (hu.1.1 object) hu.2

/-! ## The layers of an environment -/

/-- What an environment says beside what it inherits from. -/
def Draft.ownSettings (d : Draft) : Rose Setting :=
  ⟨d.label.setting, (d.children.map NodeData.setting).filterRoots (·.key != inheritsKey)⟩

/-- A document that holds what it says: its keys do not repeat, its scalars have no children, and it has
neither aliases nor references. -/
structure Draft.Literal (m : Markers) (d : Draft) : Prop where
  keys : d.Everywhere fun n => (n.children.rootKeys NodeData.key).Nodup
  leaves : d.Everywhere fun n => n.label.type.isScalar → n.children = .nil
  literal : d.Everywhere fun n => n.label.Literal m

instance (m : Markers) (d : Draft) : Decidable (d.Literal m) :=
  decidable_of_iff ((d.Everywhere fun n => (n.children.rootKeys NodeData.key).Nodup) ∧
      (d.Everywhere fun n => n.label.type.isScalar → n.children = .nil) ∧
      d.Everywhere fun n => n.label.Literal m)
    ⟨fun h => ⟨h.1, h.2.1, h.2.2⟩, fun h => ⟨h.keys, h.leaves, h.literal⟩⟩

namespace Configuration

variable {c : Configuration} {m : Markers} {name : String} {lineage : List Handle}

/-- The environments of a lineage as documents. -/
def documents (c : Configuration) (lineage : List Handle) : List Draft :=
  lineage.filterMap c.environments.extract

/-- No environment of a lineage is missing. -/
theorem exists_extract (chain : c.lineage name = .ok lineage) {h : Handle} (hh : h ∈ lineage) :
    ∃ d, c.environments.extract h = some d := by
  obtain ⟨r, hr⟩ := Option.isSome_iff_exists.1 (contains_of_lineage chain hh)
  exact ⟨r.map (·.data), by rw [Tree.extract, hr, Option.map_some]⟩

theorem documents_ne_nil (chain : c.lineage name = .ok lineage) : c.documents lineage ≠ [] := by
  obtain ⟨h, more, rfl⟩ := List.exists_cons_of_ne_nil (lineage_ne_nil chain)
  obtain ⟨d, hd⟩ := exists_extract chain List.mem_cons_self
  rw [documents, List.filterMap_cons_some hd]
  exact List.cons_ne_nil _ _

theorem settings_layer {h : Handle} {d : Draft} (hd : c.environments.extract h = some d)
    (object : d.label.type = .object)
    (leaves : d.Everywhere fun n => n.label.type.isScalar → n.children = .nil) :
    (c.layer h).map Layered.setting = d.ownSettings := by
  have filtered : (d.children.layered.map Layered.setting).filterRoots (Setting.key · != inheritsKey) =
      (d.children.layered.filterRoots (Layered.key · != inheritsKey)).map Layered.setting :=
    Forest.filterRoots_map (fun _ => rfl) _
  rw [layer, hd]
  show (d.layered.without inheritsKey).map Layered.setting = _
  rw [Rose.layered_of_object object, Rose.without, if_pos (Layered.shape_ofData object), Rose.map,
    Layered.setting_ofData, ← filtered, Forest.settings_layered leaves.2]
  rfl

/-- The merged document says what the default tree and the environments say, one over the other. -/
theorem settings_merged (chain : c.lineage name = .ok lineage)
    (default : Draft.Literal m (c.default.top.map (·.data)))
    (layers : ∀ d ∈ c.documents lineage, d.Literal m ∧ d.label.type = .object) :
    (c.merged lineage).map Layered.setting =
      ((c.documents lineage).map Draft.ownSettings).foldl .overlaid c.default.settings := by
  have merged : ∀ (hs : List Handle) (base : Rose Layered), (∀ h ∈ hs, h ∈ lineage) →
      ((hs.map c.layer).foldl .overlay base).map Layered.setting =
        ((c.documents hs).map Draft.ownSettings).foldl .overlaid (base.map Layered.setting) := by
    intro hs
    induction hs with
    | nil => exact fun _ _ => rfl
    | cons h hs ih =>
      intro base inside
      obtain ⟨hh, hhs⟩ := List.forall_mem_cons.1 inside
      obtain ⟨d, hd⟩ := exists_extract chain hh
      obtain ⟨literal, object⟩ := layers d (List.mem_filterMap.2 ⟨h, hh, hd⟩)
      have orderly : (c.layer h).Everywhere Rose.Orderly := by
        refine everywhere_layer Rose.orderly_kept fun d' hd' => ?_
        cases hd.symm.trans hd'
        exact literal.keys
      have first : c.documents (h :: hs) = d :: c.documents hs := List.filterMap_cons_some hd
      rw [List.map_cons, List.foldl_cons, ih _ hhs, Rose.settings_overlay orderly,
        settings_layer hd object literal.leaves, first]
      rfl
  rw [Configuration.merged, merged lineage _ fun _ h => h, Rose.settings_layered default.leaves,
    Tree.settings_eq]

/-- What holds of the nodes of the documents and is kept by layers holds of the merged document. -/
theorem everywhere_merged_of_literal {P : Rose NodeData → Prop} {Q : Rose Layered → Prop}
    (kept : KeptByLayers P Q) (holds : ∀ d : Draft, d.Literal m → d.Everywhere P)
    (default : Draft.Literal m (c.default.top.map (·.data)))
    (layers : ∀ d ∈ c.documents lineage, d.Literal m) : (c.merged lineage).Everywhere Q := by
  refine everywhere_merged_of_layers kept (holds _ default) fun h hh d hd => holds d ?_
  exact layers d (List.mem_filterMap.2 ⟨h, hh, hd⟩)

/-- The environment compiles to the settings of its layers, one over the other. -/
theorem exists_compile_settings (chain : c.lineage name = .ok lineage)
    (default : Draft.Literal m (c.default.top.map (·.data)))
    (layers : ∀ d ∈ c.documents lineage, d.Literal m ∧ d.label.type = .object)
    (object : (((c.documents lineage).map Draft.ownSettings).foldl Rose.overlaid
      c.default.settings).label.content = .object) :
    ∃ tree, c.compile m name = .ok tree ∧
      tree.settings = ⟨⟨"", .object⟩, (((c.documents lineage).map Draft.ownSettings).foldl
        Rose.overlaid c.default.settings).children.numbered⟩ := by
  have said := settings_merged chain default layers
  have literal := fun d hd => (layers d hd).1
  have shape : (c.merged lineage).label.shape = .object := by
    rw [← Layered.content_eq_object, ← object, ← said]
    rfl
  obtain ⟨tree, compiled, settings, -⟩ := exists_compile_of_literal chain shape
    (everywhere_merged_of_literal Rose.keyed_kept (fun _ h => h.keys) default literal)
    (everywhere_merged_of_literal (Rose.literal_kept m) (fun _ h => h.literal) default literal)
  refine ⟨tree, compiled, ?_⟩
  rw [settings, ← said]
  rfl

/-- **Layers merge with the most derived one winning.** Let an environment have a lineage, and let neither
the default tree nor the environments of the lineage, which are objects, repeat a key below one node, hold
an alias, a reference or a scalar with children. Then the environment compiles, and as a tree of keys and
values, items being keyed by their positions, the result is the default tree with these environments put
over it one after the other, the most distant ancestor first, each without what it inherits from.

So a path of keys that no environment of the lineage sets leads where it leads in the default tree. Any
other path leads to what the last environment that sets it has there, as a whole unless it is an object. -/
theorem compile_eq_overlaid (chain : c.lineage name = .ok lineage)
    (default : Draft.Literal m (c.default.top.map (·.data)))
    (layers : ∀ d ∈ c.documents lineage, d.Literal m ∧ d.label.type = .object) :
    let own := (c.documents lineage).map Draft.ownSettings
    ∃ tree, c.compile m name = .ok tree ∧
      tree.settings =
        ⟨⟨"", .object⟩, (own.foldl Rose.overlaid c.default.settings).children.numbered⟩ ∧
      (∀ path, (∀ layer ∈ own, ¬layer.Sets path) →
        tree.settings.setting? path = (c.default.settings.setting? path).map Rose.numbered) ∧
      ∀ before layer after path, own = before ++ layer :: after → layer.Sets path →
        (∀ later ∈ after, ¬later.Sets path) →
          tree.settings.content? path = layer.content? path ∧
            (layer.content? path ≠ some .object →
              tree.settings.setting? path = (layer.setting? path).map Rose.numbered) := by
  intro own
  have nonempty : own ≠ [] := fun none => documents_ne_nil chain (List.map_eq_nil_iff.1 none)
  have objects : ∀ layer ∈ own, layer.label.content = .object := by
    intro layer inside
    obtain ⟨d, hd, rfl⟩ := List.mem_map.1 inside
    exact NodeData.content_eq_object.2 (layers d hd).2
  have object := Rose.content_foldl_of_objects (l := c.default.settings) nonempty objects
  obtain ⟨tree, compiled, settings⟩ := exists_compile_settings chain default layers object
  have leads : ∀ path ≠ [], tree.settings.setting? path =
      ((own.foldl Rose.overlaid c.default.settings).setting? path).map Rose.numbered := by
    intro path below
    rw [settings]
    exact Rose.setting?_rekeyed object "" below
  refine ⟨tree, compiled, settings, fun path unset => ?_, fun before layer after path split sets last => ?_⟩
  · have below : path ≠ [] := by
      rintro rfl
      obtain ⟨layer, more, ends⟩ := List.exists_cons_of_ne_nil nonempty
      exact unset layer (ends ▸ List.mem_cons_self) trivial
    rw [leads path below, Rose.setting?_foldl_of_not_sets unset]
  · have root : layer.content? [] = some .object :=
      congrArg some (objects layer (split ▸ List.mem_append_right _ List.mem_cons_self))
    constructor
    · by_cases below : path = []
      · subst below
        rw [root, settings]
        rfl
      · rw [Rose.content?, leads path below, Option.map_map, split]
        exact Rose.content?_foldl_of_sets sets last
    · intro whole
      have below : path ≠ [] := by
        rintro rfl
        exact whole root
      rw [leads path below, split, Rose.setting?_foldl_of_sets sets last whole below]

/-- `prod` inherits from `base`; both set ports, and an array and a scalar change shape. -/
def shop : Configuration where
  default := .ofDrafts .default <|
    .cons (.ofScalar "name" (.string "shop")) .nil <|
    .cons { key := "db" }
      (.cons (.ofScalar "host" (.string "local")) .nil <|
        .cons (.ofScalar "port" (.number (.int 5432))) .nil .nil) <|
    .cons { key := "tags", type := .array }
      (.cons (.ofScalar "[0]" (.string "a")) .nil <|
        .cons (.ofScalar "[1]" (.string "b")) .nil .nil) .nil
  environments := .ofDrafts .environments <|
    .cons { key := "prod" }
      (.cons (.ofScalar "inherits" (.string "base")) .nil <|
        .cons { key := "db" } (.cons (.ofScalar "port" (.number (.int 2))) .nil .nil) <|
        .cons { key := "tags", type := .array } (.cons (.ofScalar "[0]" (.string "c")) .nil .nil) .nil) <|
    .cons { key := "base" }
      (.cons { key := "db" } (.cons (.ofScalar "port" (.number (.int 1))) .nil .nil) <|
        .cons { key := "name" } (.cons (.ofScalar "full" (.string "the shop")) .nil .nil) .nil) .nil

theorem compile_eq_overlaid_shop :
    ∃ tree, shop.compile .standard "prod" = .ok tree ∧
      tree.settings.setting? ["db", "host"] = shop.default.settings.setting? ["db", "host"] ∧
      tree.settings.content? ["db", "port"] = some (.value (some (.number (.int 2)))) ∧
      tree.settings.content? ["name", "full"] = some (.value (some (.string "the shop"))) := by
  have chain : shop.lineage "prod" = .ok [7, 1] := Outcome.toOption_eq_some.1 (by decide +kernel)
  obtain ⟨tree, compiled, -, unset, last⟩ := compile_eq_overlaid (m := .standard) chain
    (by decide +kernel) (by decide +kernel)
  refine ⟨tree, compiled, (unset _ (by decide +kernel)).trans (by decide +kernel), ?_, ?_⟩
  · exact (last [_] _ [] _ rfl (by decide +kernel) nofun).1.trans (by decide +kernel)
  · exact (last [] _ [_] _ rfl (by decide +kernel) (by decide +kernel)).1.trans (by decide +kernel)

end Configuration

end LayeredConfig
