import LayeredConfig.Compile
import LayeredConfig.Proofs.Compile.CompiledTree
import LayeredConfig.Proofs.KeyOrder.Expansion
import LayeredConfig.Proofs.KeyOrder.Substitution

/-!
# The order of keys does not matter

Two configurations that differ in the order of the children of objects compile every environment, or
fail to, together, and the compiled trees differ in the order of the children of objects only
(`compile_sameButOrder`). Each phase is followed from one configuration to the other: lineages go in
step, merged documents differ in order, so do the contents of anchors, the expanded documents and
what they resolve to.

Where two nodes declare one anchor, the first of them counts, so anchors have to be distinct.
-/

namespace LayeredConfig

theorem Tree.sameButOrder_ofDrafts {f f' : Forest NodeData}
    (h : f.Reordered NodeData.isObject true f') (kind : TreeKind) :
    (Tree.ofDrafts kind f).SameButOrder (Tree.ofDrafts kind f') := by
  rw [SameButOrder, map_data_ofDrafts, map_data_ofDrafts]
  exact ⟨rfl, h⟩

theorem Tree.SameButOrder.uniqueKeys {t t' : Tree} (h : t.SameButOrder t') (ht : t.UniqueKeys) :
    t'.UniqueKeys := by
  rw [uniqueKeys_iff_data] at ht ⊢
  exact Rose.Reordered.everywhere (fun _ _ same keys => same.children.nodup_rootKeys keys) h ht

namespace Configuration

variable {c c' : Configuration}

namespace SameButOrder

variable (h : c.SameButOrder c')

include h

theorem uniqueKeys (unique : c.UniqueKeys) : c'.UniqueKeys :=
  ⟨h.default.uniqueKeys unique.1, h.environments.uniqueKeys unique.2⟩

theorem declaredAnchors_perm : c'.declaredAnchors.Perm c.declaredAnchors := by
  unfold declaredAnchors
  rw [List.filterMap_append, List.filterMap_append]
  exact h.default.anchors_perm.append h.environments.anchors_perm

variable (sound : c.environments.Sound) (sound' : c'.environments.Sound) (unique : c.UniqueKeys)
  (distinct : c.declaredAnchors.Nodup)

include sound sound' unique distinct

/-- Where an environment compiles, it does so in the other configuration, and what is compiled
differs in order. -/
theorem compileDraft (m : Markers) {environment : String} {drafts : Forest NodeData}
    (hd : c.compileDraft m environment = .ok drafts) :
    ∃ drafts', c'.compileDraft m environment = .ok drafts' ∧
      drafts.Reordered NodeData.isObject true drafts' := by
  obtain ⟨hs, hl, hd⟩ := Outcome.bind_eq_ok.1 hd
  obtain ⟨document, hx, hd⟩ := Outcome.bind_eq_ok.1 hd
  obtain ⟨draft, hdraft, hd⟩ := Outcome.bind_eq_ok.1 hd
  obtain ⟨hs', hl', steps⟩ : ∃ hs', c'.lineage environment = .ok hs' ∧
      List.Forall₂ (InStep c c') hs hs' := by
    have lineages := h.lineage unique sound sound' environment
    rw [hl] at lineages
    generalize c'.lineage environment = x at lineages
    cases lineages with
    | ok steps => exact ⟨_, rfl, steps⟩
  have expanding := h.expanding distinct (keyed_merged unique hs)
    (nodup_anchorNames_merged sound distinct hl) (h.merged unique sound sound' steps) environment
  obtain ⟨document', hx', documents⟩ := expanding.expanded
    (fun _ _ hc => Expanding.everywhere_content?_ofConfiguration Rose.keyed_kept unique.everywhere hc)
    (fun _ _ hc => Expanding.everywhere_content?_ofConfiguration Rose.scalarLeaf_kept
      c.everywhere_true hc)
    (keyed_merged unique hs) hx
  have substituting : Substituting.SameButOrder ⟨environment, m, document⟩
      ⟨environment, m, document'⟩ :=
    ⟨rfl, rfl, documents, (Expanding.settled_expanded hx).mono fun _ settled => settled.keyed⟩
  obtain ⟨draft', hdraft', drafts⟩ := substituting.resolved hdraft
  refine ⟨_, Outcome.bind_eq_ok.2 ⟨hs', hl', Outcome.bind_eq_ok.2 ⟨document', hx',
    Outcome.bind_eq_ok.2 ⟨draft', hdraft', rfl⟩⟩⟩, ?_⟩
  rw [← Outcome.pure_eq_ok.1 hd, drafts.label]
  split
  · rename_i object
    have below := drafts.children
    rwa [show draft.label.isObject = true from decide_eq_true object] at below
  · exact .nil

theorem compile (m : Markers) {environment : String} {t : Tree}
    (ht : c.compile m environment = .ok t) :
    ∃ t', c'.compile m environment = .ok t' ∧ t.SameButOrder t' := by
  unfold Configuration.compile at ht ⊢
  cases hd : c.compileDraft m environment with
  | error err =>
    rw [hd] at ht
    cases ht
  | ok drafts =>
    rw [hd] at ht
    cases ht
    obtain ⟨drafts', hd', same⟩ := h.compileDraft sound sound' unique distinct m hd
    exact ⟨_, by rw [hd']; rfl, Tree.sameButOrder_ofDrafts same _⟩

end SameButOrder

/-- **The order of keys does not matter.** Two configurations differ only in the order of the children
of objects; sibling keys are unique, and no two nodes of both trees declare one anchor. Then an
environment compiles in both or in neither, and the compiled trees differ only in the order of the
children of objects. -/
theorem compile_sameButOrder (sound : c.environments.Sound) (sound' : c'.environments.Sound)
    (h : c.SameButOrder c') (unique : c.UniqueKeys) (distinct : c.declaredAnchors.Nodup)
    (m : Markers) (environment : String) :
    ((∃ t, c.compile m environment = .ok t) ↔ ∃ t', c'.compile m environment = .ok t') ∧
      ∀ t t', c.compile m environment = .ok t → c'.compile m environment = .ok t' →
        t.SameButOrder t' := by
  have unique' := h.uniqueKeys unique
  have distinct' := h.declaredAnchors_perm.nodup_iff.2 distinct
  refine ⟨⟨?_, ?_⟩, ?_⟩
  · rintro ⟨t, ht⟩
    exact (h.compile sound sound' unique distinct m ht).imp fun _ => And.left
  · rintro ⟨t', ht'⟩
    exact (h.symm.compile sound' sound unique' distinct' m ht').imp fun _ => And.left
  · intro t t' ht ht'
    obtain ⟨s, hs, same⟩ := h.compile sound sound' unique distinct m ht
    rw [hs] at ht'
    cases ht'
    exact same

/-- A configuration with its entries in one order. The address of the replica is that of the main
database, given by an alias; `prod` inherits from `base`. -/
def inOneOrder : Configuration where
  default := .ofDrafts .default <|
    .cons { key := "db", anchor := "db" }
      (.cons (.ofScalar "host" (.string "local")) .nil <|
        .cons (.ofScalar "url" (.string "$\x7bhost\x7d/$\x7benv\x7d")) .nil .nil) <|
    .cons { key := "replica", aliases := ["db"] } .nil .nil
  environments := .ofDrafts .environments <|
    .cons { key := "prod" }
      (.cons (.ofScalar "inherits" (.string "base")) .nil .nil) <|
    .cons { key := "base" }
      (.cons { key := "db" } (.cons (.ofScalar "host" (.string "remote")) .nil .nil) .nil) .nil

/-- The same configuration with the entries of its objects in another order. -/
def inAnotherOrder : Configuration where
  default := .ofDrafts .default <|
    .cons { key := "replica", aliases := ["db"] } .nil <|
    .cons { key := "db", anchor := "db" }
      (.cons (.ofScalar "url" (.string "$\x7bhost\x7d/$\x7benv\x7d")) .nil <|
        .cons (.ofScalar "host" (.string "local")) .nil .nil) .nil
  environments := .ofDrafts .environments <|
    .cons { key := "base" }
      (.cons { key := "db" } (.cons (.ofScalar "host" (.string "remote")) .nil .nil) .nil) <|
    .cons { key := "prod" }
      (.cons (.ofScalar "inherits" (.string "base")) .nil .nil) .nil

theorem compile_sameButOrder_prod :
    ∃ t t', inOneOrder.compile .standard "prod" = .ok t ∧
      inAnotherOrder.compile .standard "prod" = .ok t' ∧ t.SameButOrder t' ∧ t ≠ t' := by
  have differ : inOneOrder.SameButOrder inAnotherOrder :=
    { default := Tree.sameButOrder_ofDrafts (.trans (.cons .swap (.refl _ _ _)) .swap) _
      environments := Tree.sameButOrder_ofDrafts .swap _ }
  obtain ⟨both, same⟩ := compile_sameButOrder (by decide +kernel) (by decide +kernel) differ
    (by decide +kernel) (by decide +kernel) .standard "prod"
  obtain ⟨t, compiled⟩ := Outcome.isSome_toOption.1 (by decide +kernel :
    (inOneOrder.compile .standard "prod").toOption.isSome)
  obtain ⟨t', compiled'⟩ := both.1 ⟨t, compiled⟩
  have other : (inOneOrder.compile .standard "prod").toOption ≠
      (inAnotherOrder.compile .standard "prod").toOption := by decide +kernel
  refine ⟨t, t', compiled, compiled', same t t' compiled compiled', ?_⟩
  rintro rfl
  exact other (by rw [compiled, compiled'])

end Configuration

end LayeredConfig
