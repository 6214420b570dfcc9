import LayeredConfig.Proofs.Compile.StandIn

/-!
# Expansion of aliases is exact

An alias is *met* while an expansion of other names is in progress: those of the document while
none is, and those of an anchor's content while that anchor is expanded (`Expanding.Meets`).

* `exists_expandAlias` : if every alias met names a declared anchor that is not in progress,
  expansion succeeds, because the anchors still available become fewer on the way down;
* `exists_of_meets` : if it succeeds, every alias met was expanded;
* `exists_expansion` : what an alias stands for depends neither on where it is met nor on what is
  in progress.

Main statement: `expanded_exact`.
-/

namespace LayeredConfig

theorem nodup_eraseDups (names : List String) : names.eraseDups.Nodup := by
  cases names with
  | nil => exact List.nodup_nil
  | cons name names =>
    rw [List.eraseDups_cons]
    refine List.nodup_cons.2 ⟨fun h => ?_, nodup_eraseDups _⟩
    have h := List.mem_eraseDups.1 h
    simp at h
termination_by names.length
decreasing_by exact Nat.lt_succ_of_le (List.length_filter_le _ _)

theorem length_erase_lt {α : Type} [BEq α] [LawfulBEq α] {l : List α} {a : α} (h : a ∈ l) :
    (l.erase a).length < l.length := by
  have := List.length_erase_of_mem h
  have := List.length_pos_of_mem h
  omega

namespace Expanding

variable {e : Expanding}

/-- An alias is met while expanding, with the names whose expansion is in progress. -/
inductive Meets (e : Expanding) : List String → String → Prop
  | document {name : String} : name ∈ e.document.aliasNames → Meets e [] name
  | content {inProgress : List String} {outer name : String} {content : Rose Layered} :
    Meets e inProgress outer → outer ∉ inProgress → e.content? outer = some content →
      name ∈ content.aliasNames → Meets e (outer :: inProgress) name

/-- The names that are available while the expansion of others is in progress. -/
def available (e : Expanding) (inProgress : List String) : List String :=
  inProgress.foldr (fun name names => names.erase name) e.names

theorem nodup_available (e : Expanding) (inProgress : List String) :
    (e.available inProgress).Nodup := by
  induction inProgress with
  | nil => exact nodup_eraseDups _
  | cons name inProgress ih => exact ih.erase name

theorem mem_available {inProgress : List String} {name : String} :
    name ∈ e.available inProgress ↔ name ∈ e.names ∧ name ∉ inProgress := by
  induction inProgress with
  | nil => simp [available]
  | cons other inProgress ih =>
    change name ∈ (e.available inProgress).erase other ↔ _
    rw [(e.nodup_available inProgress).mem_erase_iff, ih]
    simp only [List.mem_cons, not_or]
    exact and_left_comm

/-! ## One alias -/

theorem expandAlias_eq_ok {available : List String} {place : Place} {name : String}
    {x : Rose Layered} :
    e.expandAlias available place name = .ok x ↔
      ∃ content, e.content? name = some content ∧ name ∈ available ∧
        content.expanded (e.expandAlias (available.erase name)) place = .ok x := by
  rw [expandAlias]
  cases hc : e.content? name with
  | none => simp
  | some content =>
    by_cases ha : name ∈ available
    · simp [ha]
    · simp [ha]

theorem expandAlias_eq_error {available : List String} {place : Place} {name : String}
    {err : CompileError} :
    e.expandAlias available place name = .error err ↔
      (e.content? name = none ∧ err = .unresolvedAlias name (place.text e.environment)) ∨
      ∃ content, e.content? name = some content ∧
        ((name ∉ available ∧ err = .aliasCycle name (place.text e.environment)) ∨
          (name ∈ available ∧
            content.expanded (e.expandAlias (available.erase name)) place = .error err)) := by
  rw [expandAlias]
  cases hc : e.content? name with
  | none => simp [eq_comm]
  | some content =>
    by_cases ha : name ∈ available
    · simp [ha]
    · simp [ha, eq_comm]

/-! ## Contents of anchors -/

theorem mem_of_lookup {name : String} {source : AnchorSource}
    (h : e.anchors.lookup name = some source) : (name, source) ∈ e.anchors := by
  obtain ⟨front, back, same, -⟩ := List.lookup_eq_some_iff.1 h
  rw [same]
  exact List.mem_append_right _ List.mem_cons_self

theorem mem_names {name : String} : name ∈ e.names ↔ ∃ source, (name, source) ∈ e.anchors := by
  simp [names, List.mem_eraseDups]

theorem mem_names_of_content? {name : String} {content : Rose Layered}
    (h : e.content? name = some content) : name ∈ e.names := by
  unfold content? at h
  split at h
  · exact mem_names.2 ⟨_, mem_of_lookup ‹_›⟩
  · exact mem_names.2 ⟨_, mem_of_lookup ‹_›⟩
  · cases h

/-- What holds of every node of the document and of the contents outside it holds of every node of
an anchor's content. -/
theorem everywhere_content? {Q : Rose Layered → Prop} {name : String} {content : Rose Layered}
    (hd : e.document.Everywhere Q)
    (ho : ∀ r, (name, AnchorSource.content r) ∈ e.anchors → r.Everywhere Q)
    (h : e.content? name = some content) : content.Everywhere Q := by
  unfold content? at h
  split at h
  · exact Rose.everywhere_of_mem_located hd (Rose.mem_located_of_at? h)
  · cases h
    exact ho _ (mem_of_lookup ‹_›)
  · cases h

/-! ## Documents whose anchors have the same contents -/

section Same

variable {e' : Expanding} {S : String → Prop} (environment : e'.environment = e.environment)
  (same : ∀ name, S name → e'.content? name = e.content? name)
  (closed : ∀ name, S name → ∀ content, e.content? name = some content →
    ∀ inner ∈ content.aliasNames, S inner)

include environment same closed

theorem expandAlias_congr {available : List String} {name : String} (hn : S name) (place : Place) :
    e'.expandAlias available place name = e.expandAlias available place name := by
  rw [expandAlias, expandAlias, same name hn, environment]
  cases hc : e.content? name with
  | none => rfl
  | some content =>
    by_cases ha : name ∈ available
    · simp only [dif_pos ha]
      exact Rose.expanded_congr (fun inner hi => expandAlias_congr (closed name hn content hc inner hi))
        place
    · simp only [dif_neg ha]
termination_by available.length
decreasing_by exact length_erase_lt ha

/-- Expansion depends on the contents of the anchors that aliases lead to. -/
theorem expanded_congr (document : e'.document = e.document) (names : e'.names = e.names)
    (hd : ∀ name ∈ e.document.aliasNames, S name) : e'.expanded = e.expanded := by
  unfold expanded
  rw [document, names]
  exact Rose.expanded_congr (fun name hn => expandAlias_congr environment same closed (hd name hn)) []

end Same

/-! ## Runs of expansion -/

/-- If each alias met names an anchor with a content and is not in progress, it is expanded. The
names available become fewer with every expansion begun. -/
theorem exists_expandAlias
    (h : ∀ inProgress name, e.Meets inProgress name →
      (e.content? name).isSome ∧ name ∉ inProgress)
    {inProgress : List String} {name : String} (hm : e.Meets inProgress name) (place : Place) :
    ∃ x, e.expandAlias (e.available inProgress) place name = .ok x := by
  obtain ⟨found, fresh⟩ := h inProgress name hm
  obtain ⟨content, hc⟩ := Option.isSome_iff_exists.1 found
  have ha : name ∈ e.available inProgress := mem_available.2 ⟨mem_names_of_content? hc, fresh⟩
  have inner : ∀ inner ∈ content.aliasNames, ∀ place,
      ∃ x, e.expandAlias ((e.available inProgress).erase name) place inner = .ok x :=
    fun inner hi place => exists_expandAlias h (.content hm fresh hc hi) place
  obtain ⟨x, hx⟩ := Rose.exists_expanded inner place
  exact ⟨x, expandAlias_eq_ok.2 ⟨content, hc, ha, hx⟩⟩
termination_by (e.available inProgress).length
decreasing_by exact length_erase_lt ha

/-- If expansion succeeds, every alias met was expanded. -/
theorem exists_of_meets {r : Rose Layered} (h : e.expanded = .ok r) {inProgress : List String}
    {name : String} (hm : e.Meets inProgress name) :
    ∃ place x, e.expandAlias (e.available inProgress) place name = .ok x := by
  induction hm with
  | document hname => exact Rose.exists_alias_of_expanded h hname
  | content _ _ hc hname ih =>
    obtain ⟨place, x, hx⟩ := ih
    obtain ⟨content, hc', -, hx⟩ := expandAlias_eq_ok.1 hx
    cases hc.symm.trans hc'
    exact Rose.exists_alias_of_expanded hx hname

/-- An error is that of an alias met: its anchor has no content, or it is in progress. -/
theorem error_of_meets {inProgress : List String} {name : String} (hm : e.Meets inProgress name)
    {place : Place} {err : CompileError}
    (h : e.expandAlias (e.available inProgress) place name = .error err) :
    ∃ inProgress name place, e.Meets inProgress name ∧
      ((e.content? name = none ∧ err = .unresolvedAlias name (Place.text e.environment place)) ∨
        (name ∈ inProgress ∧ err = .aliasCycle name (Place.text e.environment place))) := by
  rcases expandAlias_eq_error.1 h with ⟨hc, rfl⟩ | ⟨content, hc, ⟨ha, rfl⟩ | ⟨ha, h⟩⟩
  · exact ⟨inProgress, name, place, hm, Or.inl ⟨hc, rfl⟩⟩
  · refine ⟨inProgress, name, place, hm, Or.inr ⟨?_, rfl⟩⟩
    by_contra fresh
    exact ha (mem_available.2 ⟨mem_names_of_content? hc, fresh⟩)
  · obtain ⟨inner, hi, place', h⟩ := Rose.exists_alias_error h
    exact error_of_meets (.content hm (mem_available.1 ha).2 hc hi) h
termination_by (e.available inProgress).length
decreasing_by exact length_erase_lt ha

/-! ## What aliases stand for -/

/-- The content of an alias depends neither on the place nor on the names available. -/
theorem expandAlias_unique
    (hk : ∀ name content, e.content? name = some content → content.Everywhere Rose.Keyed)
    {available available' : List String} {place place' : Place} {name : String}
    {x y : Rose Layered} (hx : e.expandAlias available place name = .ok x)
    (hy : e.expandAlias available' place' name = .ok y) : x = y := by
  obtain ⟨content, hc, ha, hx⟩ := expandAlias_eq_ok.1 hx
  obtain ⟨content', hc', ha', hy⟩ := expandAlias_eq_ok.1 hy
  cases hc.symm.trans hc'
  have agree : ∀ inner, ∃ v, inner ∈ content.aliasNames →
      (∀ p w, e.expandAlias (available.erase name) p inner = .ok w → w = v) ∧
      ∀ p w, e.expandAlias (available'.erase name) p inner = .ok w → w = v := by
    intro inner
    by_cases hi : inner ∈ content.aliasNames
    · obtain ⟨p, u, hu⟩ := Rose.exists_alias_of_expanded hx hi
      obtain ⟨p', v, hv⟩ := Rose.exists_alias_of_expanded hy hi
      refine ⟨v, fun _ => ⟨fun q w hw => expandAlias_unique hk hw hv, fun q w hw => ?_⟩⟩
      exact (expandAlias_unique hk hu hw).symm.trans (expandAlias_unique hk hu hv)
    · exact ⟨x, fun h => absurd h hi⟩
  choose expansion agree using agree
  rw [Rose.expanded_eq_unaliased (hk _ _ hc) (fun inner hi => (agree inner hi).1) hx,
    Rose.expanded_eq_unaliased (hk _ _ hc) (fun inner hi => (agree inner hi).2) hy]
termination_by available.length
decreasing_by all_goals exact length_erase_lt ha

/-- There is one content for each name that any alias of that name stands for. -/
theorem exists_expansion
    (hk : ∀ name content, e.content? name = some content → content.Everywhere Rose.Keyed) :
    ∃ expansion : String → Rose Layered, ∀ available place name x,
      e.expandAlias available place name = .ok x → x = expansion name := by
  have unique : ∀ name, ∃ v, ∀ available place x,
      e.expandAlias available place name = .ok x → x = v := by
    intro name
    by_cases h : ∃ available place x, e.expandAlias available place name = .ok x
    · obtain ⟨available, place, v, hv⟩ := h
      exact ⟨v, fun _ _ _ hx => expandAlias_unique hk hx hv⟩
    · exact ⟨e.document, fun available place x hx => absurd ⟨available, place, x, hx⟩ h⟩
  choose expansion unique using unique
  exact ⟨expansion, fun available place name => unique name available place⟩

/-- What expansion gives for an alias is settled. -/
theorem settled_expandAlias
    (hs : ∀ name content, e.content? name = some content → content.Everywhere Rose.ScalarLeaf)
    {available : List String} {place : Place} {name : String} {x : Rose Layered}
    (hx : e.expandAlias available place name = .ok x) : x.Everywhere Rose.Settled := by
  obtain ⟨content, hc, ha, hx⟩ := expandAlias_eq_ok.1 hx
  exact Rose.settled_expanded (hs _ _ hc) (fun inner _ place v hv => settled_expandAlias hs hv) hx
termination_by available.length
decreasing_by exact length_erase_lt ha

end Expanding

/-! ## The merged document of a configuration -/

theorem Tree.mem_anchorContents {t : Tree} {name : String} {source : AnchorSource} :
    (name, source) ∈ t.anchorContents ↔
      ∃ n ∈ (t.forest.map (·.data)).subtrees,
        n.label.anchor = some name ∧ source = .content n.layered := by
  simp only [anchorContents, List.mem_filterMap, Option.map_eq_some_iff, Prod.mk.injEq]
  constructor
  · rintro ⟨n, hn, a, ha, rfl, rfl⟩
    exact ⟨n, hn, ha, rfl⟩
  · rintro ⟨n, hn, ha, rfl⟩
    exact ⟨n, hn, name, ha, rfl, rfl⟩

theorem Tree.everywhere_forest {P : Rose NodeData → Prop} {t : Tree} :
    (t.forest.map (·.data)).Everywhere P ↔ (t.top.map (·.data)).Everywhere P := by
  rw [forest, Forest.ofRose, Forest.map, Forest.everywhere_cons]
  simp [Rose.Everywhere, Rose.map, Forest.map]

/-- The names of the anchors found outside the document are those that the trees declare. -/
theorem Tree.exists_mem_anchorContents {t : Tree} {name : String} :
    (∃ source, (name, source) ∈ t.anchorContents) ↔ ∃ e ∈ t.entries, e.data.anchor = some name := by
  have labels : (t.forest.map (·.data)).subtrees.map Rose.label = t.entries.map (·.data) := by
    rw [Forest.map_label_subtrees, Forest.preorder_map, forest, entries, Forest.ofRose,
      Forest.preorder, Forest.preorder, List.append_nil, Rose.preorder]
  simp only [mem_anchorContents]
  constructor
  · rintro ⟨source, n, hn, ha, -⟩
    have hl : n.label ∈ t.entries.map (·.data) := labels ▸ List.mem_map_of_mem hn
    obtain ⟨e, he, same⟩ := List.mem_map.1 hl
    exact ⟨e, he, by rw [same, ha]⟩
  · rintro ⟨e, he, ha⟩
    have hl : e.data ∈ (t.forest.map (·.data)).subtrees.map Rose.label :=
      labels ▸ List.mem_map_of_mem he
    obtain ⟨n, hn, same⟩ := List.mem_map.1 hl
    exact ⟨_, n, hn, by rw [same, ha], rfl⟩

namespace Expanding

variable {c : Configuration} {environment : String} {lineage : List Handle}

theorem mem_anchors_ofConfiguration {document : Rose Layered} {name : String}
    {source : AnchorSource} :
    (name, source) ∈ (ofConfiguration c environment document).anchors ↔
      (name, source) ∈ document.anchorPlaces ∨ (name, source) ∈ c.default.anchorContents ∨
        (name, source) ∈ c.environments.anchorContents := by
  simp [ofConfiguration]

/-- What layering keeps holds of every node of an anchor's content. -/
theorem everywhere_content?_ofConfiguration {P : Rose NodeData → Prop} {Q : Rose Layered → Prop}
    (kept : KeptByLayers P Q) (hc : c.Everywhere P) {name : String} {content : Rose Layered}
    (h : (ofConfiguration c environment (c.merged lineage)).content? name = some content) :
    content.Everywhere Q := by
  refine everywhere_content? (Configuration.everywhere_merged kept hc lineage) ?_ h
  intro r hr
  have outside : ∀ t : Tree, (t.top.map (·.data)).Everywhere P →
      (name, AnchorSource.content r) ∈ t.anchorContents → r.Everywhere Q := by
    intro t ht hr
    obtain ⟨n, hn, -, same⟩ := Tree.mem_anchorContents.1 hr
    cases same
    exact Rose.everywhere_layered kept.single
      ((Tree.everywhere_forest.2 ht).of_mem_subtrees hn)
  rcases mem_anchors_ofConfiguration.1 hr with hr | hr | hr
  · obtain ⟨_, _, -, -, same⟩ := Rose.mem_anchorPlaces.1 hr
    cases same
  · exact outside _ hc.1 hr
  · exact outside _ hc.2 hr

/-- What the merged document of any layers expands to is settled. -/
theorem settled_expanded {document : Rose Layered}
    (h : (ofConfiguration c environment (c.merged lineage)).expanded = .ok document) :
    document.Everywhere Rose.Settled :=
  Rose.settled_expanded (Configuration.scalarLeaf_merged c lineage)
    (fun _ _ _ _ hx => settled_expandAlias (fun _ _ h =>
      everywhere_content?_ofConfiguration Rose.scalarLeaf_kept c.everywhere_true h) hx) h

/-- Where keys do not repeat, the names with a content are those of the declared anchors. -/
theorem content?_isSome_iff (hc : c.UniqueKeys) {name : String} :
    ((ofConfiguration c environment (c.merged lineage)).content? name).isSome ↔
      name ∈ c.declaredAnchors := by
  have declared : name ∈ c.declaredAnchors ↔
      (∃ source, (name, source) ∈ c.default.anchorContents) ∨
        ∃ source, (name, source) ∈ c.environments.anchorContents := by
    simp only [Configuration.declaredAnchors, List.mem_filterMap, List.mem_append, or_and_right,
      exists_or, Tree.exists_mem_anchorContents]
  constructor
  · intro h
    obtain ⟨content, h⟩ := Option.isSome_iff_exists.1 h
    obtain ⟨source, h⟩ := mem_names.1 (mem_names_of_content? h)
    rcases mem_anchors_ofConfiguration.1 h with h | h | h
    · obtain ⟨place, n, hn, ha, -⟩ := Rose.mem_anchorPlaces.1 h
      exact (Rose.everywhere_of_mem_located (Configuration.anchors_merged c lineage) hn).1 name ha
    · exact declared.2 (Or.inl ⟨source, h⟩)
    · exact declared.2 (Or.inr ⟨source, h⟩)
  · intro h
    have named : ∃ source,
        (name, source) ∈ (ofConfiguration c environment (c.merged lineage)).anchors := by
      rcases declared.1 h with ⟨source, h⟩ | ⟨source, h⟩
      · exact ⟨source, mem_anchors_ofConfiguration.2 (Or.inr (Or.inl h))⟩
      · exact ⟨source, mem_anchors_ofConfiguration.2 (Or.inr (Or.inr h))⟩
    obtain ⟨source, named⟩ := named
    have found : ((ofConfiguration c environment (c.merged lineage)).anchors.lookup name).isSome :=
      List.lookup_isSome_iff.2 ⟨_, named, beq_self_eq_true name⟩
    obtain ⟨first, found⟩ := Option.isSome_iff_exists.1 found
    unfold content?
    rw [found]
    cases first with
    | content r => rfl
    | place place =>
      rcases mem_anchors_ofConfiguration.1 (mem_of_lookup found) with h | h | h
      · obtain ⟨_, n, hn, -, same⟩ := Rose.mem_anchorPlaces.1 h
        cases same
        exact Option.isSome_iff_exists.2 ⟨n, Rose.at?_of_mem_located
          (Configuration.keyed_merged hc lineage) (Configuration.scalarLeaf_merged c lineage) hn⟩
      · obtain ⟨_, -, -, same⟩ := Tree.mem_anchorContents.1 h
        cases same
      · obtain ⟨_, -, -, same⟩ := Tree.mem_anchorContents.1 h
        cases same

/-- **Alias expansion is exact.** In a configuration whose sibling keys are unique, the expansion of
the merged document of any layers succeeds iff every alias met names a declared anchor that is not
in progress; otherwise the error is that of an alias met that does not. The result has no marker and
no repeated key, and it is the merged document with its aliases standing for the contents of their
anchors, in which aliases stand for the contents of theirs. -/
theorem expanded_exact (hc : c.UniqueKeys) (environment : String) (lineage : List Handle) :
    let e := ofConfiguration c environment (c.merged lineage)
    ((∃ r, e.expanded = .ok r) ↔ ∀ inProgress name, e.Meets inProgress name →
      name ∈ c.declaredAnchors ∧ name ∉ inProgress) ∧
    (∀ err, e.expanded = .error err → ∃ inProgress name place, e.Meets inProgress name ∧
      ((name ∉ c.declaredAnchors ∧ err = .unresolvedAlias name (Place.text environment place)) ∨
        (name ∈ inProgress ∧ err = .aliasCycle name (Place.text environment place)))) ∧
    ∀ r, e.expanded = .ok r → r.Everywhere Rose.Settled ∧
      ∃ expansion : String → Rose Layered, r = e.document.unaliased expansion ∧
        ∀ inProgress name, e.Meets inProgress name →
          ∃ content, e.content? name = some content ∧
            expansion name = content.unaliased expansion := by
  intro e
  have hk : ∀ name content, e.content? name = some content → content.Everywhere Rose.Keyed :=
    fun _ _ h => everywhere_content?_ofConfiguration Rose.keyed_kept hc.everywhere h
  refine ⟨⟨?_, ?_⟩, ?_, ?_⟩
  · rintro ⟨r, hr⟩ inProgress name hm
    obtain ⟨place, x, hx⟩ := exists_of_meets hr hm
    obtain ⟨content, hcontent, ha, -⟩ := expandAlias_eq_ok.1 hx
    exact ⟨(content?_isSome_iff hc).1 (Option.isSome_iff_exists.2 ⟨content, hcontent⟩),
      (mem_available.1 ha).2⟩
  · intro h
    have good : ∀ inProgress name, e.Meets inProgress name →
        (e.content? name).isSome ∧ name ∉ inProgress := fun inProgress name hm =>
      ⟨(content?_isSome_iff hc).2 (h inProgress name hm).1, (h inProgress name hm).2⟩
    exact Rose.exists_expanded (fun name hname => exists_expandAlias good (.document hname)) []
  · intro err herr
    obtain ⟨name, hname, place, h⟩ := Rose.exists_alias_error herr
    obtain ⟨inProgress, name, place, hm, h⟩ := error_of_meets (.document hname) h
    refine ⟨inProgress, name, place, hm, h.imp (fun h => ⟨fun declared => ?_, h.2⟩) id⟩
    have found : (e.content? name).isSome := (content?_isSome_iff hc).2 declared
    exact Option.isSome_iff_ne_none.1 found h.1
  · intro r hr
    obtain ⟨expansion, hexp⟩ := exists_expansion hk
    refine ⟨settled_expanded hr, expansion, Rose.expanded_eq_unaliased (Configuration.keyed_merged hc lineage)
        (fun name _ place x hx => hexp _ place name x hx) hr, ?_⟩
    intro inProgress name hm
    obtain ⟨place, x, hx⟩ := exists_of_meets hr hm
    obtain ⟨content, hcontent, -, hx'⟩ := expandAlias_eq_ok.1 hx
    refine ⟨content, hcontent, ?_⟩
    rw [← hexp _ place name x hx]
    exact Rose.expanded_eq_unaliased (hk _ _ hcontent)
      (fun inner _ place y hy => hexp _ place inner y hy) hx'

/-- Objects that merge one another, and an environment that overrides the first of them. -/
def nestedAnchors : Configuration where
  default := .ofDrafts .default <|
    .cons { key := "base", anchor := "base" }
      (.cons (.ofScalar "host" (.string "local")) .nil .nil) <|
    .cons { key := "db", anchor := "db", aliases := ["base"] }
      (.cons (.ofScalar "port" (.number (.int 5432))) .nil .nil) <|
    .cons { key := "replica", aliases := ["db"] } .nil .nil
  environments := .ofDrafts .environments <|
    .cons { key := "prod" }
      (.cons { key := "base" } (.cons (.ofScalar "host" (.string "remote")) .nil .nil) .nil) .nil

theorem expanded_exact_nestedAnchors :
    let e := ofConfiguration nestedAnchors "prod" (nestedAnchors.merged [1])
    nestedAnchors.UniqueKeys ∧ (∃ r, e.expanded = .ok r ∧ r.Everywhere Rose.Settled) ∧
      ∀ inProgress name, e.Meets inProgress name →
        name ∈ nestedAnchors.declaredAnchors ∧ name ∉ inProgress := by
  intro e
  have unique : nestedAnchors.UniqueKeys := by decide
  have succeeds : ∃ r, e.expanded = .ok r := Outcome.isSome_toOption.1 (by decide +kernel)
  obtain ⟨success, -, result⟩ := expanded_exact unique "prod" [1]
  obtain ⟨r, hr⟩ := succeeds
  exact ⟨unique, ⟨r, hr, (result r hr).1⟩, success.1 ⟨r, hr⟩⟩

end Expanding

end LayeredConfig
