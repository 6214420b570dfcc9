import LayeredConfig.Proofs.Session.AnchorRename
import LayeredConfig.Proofs.Session.Aliases
import LayeredConfig.Proofs.Tree.Types

/-!
# Types over a run of a session

A draft is made fit for its type before it is written, and it is written with what has to go: a node
that becomes a scalar loses its children, and what an edit changes elsewhere are keys, aliases and the
texts of strings. So in a session whose trees are well-typed they are after every step
(`wellTyped_perform`), and after every run (`wellTyped_run`), if the nodes below the top of each draft
are well-typed. The top may be anything.
-/

namespace LayeredConfig

theorem Draft.sanitized_wellTyped {draft new : Draft} (h : draft.sanitized = .ok new)
    (below : draft.children.Everywhere Rose.WellTyped) : new.Everywhere Rose.WellTyped := by
  unfold sanitized at h
  dsimp only at h
  split at h
  · rename_i container
    cases h
    refine ⟨?_, ?_⟩
    · show (if draft.label.type.isContainer then none = none else _)
      rw [if_pos container]
    · dsimp only
      split
      · exact everywhere_wellTyped_numberItems below
      · exact below
  · rename_i scalar
    have leaf (fits : ∀ v ∈ draft.label.value, v.valueType = draft.label.type) :
        (⟨draft.label, .nil⟩ : Draft).Everywhere Rose.WellTyped :=
      ⟨(if_neg scalar).mpr ⟨rfl, fits⟩, Forest.everywhere_nil⟩
    split at h
    · rename_i value known
      split at h
      · rename_i fits
        cases h
        exact leaf fun v hv => by cases known.symm.trans hv; exact fits
      · cases h
    · rename_i known
      cases h
      exact leaf fun v hv => by cases known.symm.trans hv

namespace Configuration

variable {c : Configuration} {t : Tree} {n : NodeRef} {h : Handle} {live : NodeData} {draft new : Draft}

theorem wellTyped_kept : KeptByRemoval Tree.WellTyped where
  remove _ h ht := ht.remove h
  removeAlias _ _ ht := ht.modifyAll (fun _ => rfl) fun _ => rfl

theorem WellTyped.alignAnchor (hw : c.WellTyped) (old new : Option String) :
    (c.alignAnchor old new).WellTyped := by
  rw [alignAnchor_eq]
  exact ⟨Tree.WellTyped.modifyAll hw.1 (f := .following old new) (fun _ => rfl) fun _ => rfl,
    Tree.WellTyped.modifyAll hw.2 (f := .following old new) (fun _ => rfl) fun _ => rfl⟩

/-- The overrides are taken away or renamed, and a renaming turns references in strings. -/
theorem WellTyped.alignEdit (hw : c.WellTyped) (hc : c.Sound) (n : NodeRef) (live new : NodeData)
    (m : Markers) : (c.alignEdit n live new m).WellTyped := by
  have default : c.default.WellTyped := hw.1
  have environments : c.environments.WellTyped := hw.2
  unfold Configuration.alignEdit
  split
  · split
    · refine ⟨?_, wellTyped_kept.removeOverrides environments _⟩
      unfold alignTypeChange
      dsimp only
      split
      · exact default.clear _
      · exact default
    · split
      · unfold alignKeyRename
        split
        · exact hw
        · rename_i old _
          have renamed := environments.renameOverrides (c.default.alignedPath n.handle) new.key
          have sound : (c.environments.alignOverrides (c.default.alignedPath n.handle) fun t h =>
              t.modify h fun d => { d with key := new.key }).1.Sound :=
            List.foldlRecOn (motive := Tree.Sound) _ _ hc.2 fun _ ht h _ => ht.modify h _
          exact ⟨default.renameReferences hc.1 m old new.key, renamed.renameReferences sound m old new.key⟩
      · exact hw
  · exact hw

/-- A scalar is written over a node that loses its children, a container over what stands below. -/
theorem wellTyped_writeDraft (ht : t.WellTyped) (sound : t.Sound) (h : Handle)
    (typed : new.Everywhere Rose.WellTyped) : (writeDraft t h new).WellTyped := by
  have top := Rose.wellTyped_iff_shallow.1 typed.1
  unfold writeDraft
  dsimp only
  split
  · rename_i scalar
    rw [← Tree.clear_modify]
    refine (ht.clear h).write fun r hr same => ?_
    rw [(ht.everywhere_clear h r hr).2 same]
    exact top.mono fun _ => rfl
  · rename_i scalar
    have container : new.label.type.isContainer := by
      unfold ValueType.isContainer
      simpa using scalar
    have written : (t.modify h fun _ => new.label).WellTyped :=
      ht.write fun _ _ _ => top.of_container container
    split
    · exact written
    · refine (written.clear h).graftAll ((sound.modify h _).clear h) typed.2 fun d hd => ?_
      rw [Tree.data?_clear_self, Tree.data?_modify] at hd
      obtain ⟨old, -, rfl⟩ := Option.map_eq_some_iff.1 hd
      rw [if_pos rfl]
      exact container

/-- An edit whose draft is well-typed below its top. -/
theorem WellTyped.edited (hw : c.WellTyped) (hc : c.Sound) (ha : admittedEdit t n live draft = .ok new)
    (below : draft.children.Everywhere Rose.WellTyped) (m : Markers) :
    (c.edited n live new m).WellTyped := by
  obtain ⟨key, type, fit⟩ := admittedEdit_sanitized ha
  have typed := Draft.sanitized_wellTyped fit below
  have aligned := hw.alignEdit hc n live new.label m
  have written : ((c.alignEdit n live new.label m).mapTree n.tree (writeDraft · n.handle new)).WellTyped :=
    mapTree_both (P := Tree.WellTyped) aligned.1 aligned.2 fun t' ht' =>
      wellTyped_writeDraft (aligned.tree ht') ((sound_alignEdit hc n live new.label m).tree ht') _ typed
  exact written.alignAnchor _ _

end Configuration

/-! ## Steps and runs -/

namespace Session

variable {s : Session} {a : Action} {actions : List Action} {draft new : Draft}

theorem Adds.wellTyped {parent : NodeRef} {t : Tree} {data : NodeData} (hs : s.config.Sound)
    (hw : s.config.WellTyped) (h : s.Adds draft parent t data new)
    (below : draft.children.Everywhere Rose.WellTyped) :
    (s.config.mapTree parent.tree fun t => (t.graft parent.handle new).1).WellTyped := by
  obtain ⟨container, key, fit⟩ := Configuration.admittedBelow_sanitized h.admitted
  have typed : (Forest.ofRose new).Everywhere Rose.WellTyped :=
    Rose.everywhere_iff_ofRose.1 (Draft.sanitized_wellTyped fit below)
  refine Configuration.mapTree_both (P := Tree.WellTyped) hw.1 hw.2 fun t' ht' => ?_
  show (t'.graftAll parent.handle (.ofRose new)).1.WellTyped
  refine (hw.tree ht').graftAll (hs.tree ht') typed fun d hd => ?_
  cases ht'.symm.trans h.tree
  cases hd.symm.trans h.known
  rw [ValueType.isContainer, container]
  rfl

/-- **One step.** Trees that are well-typed are well-typed after a step, whether it is refused or
not. -/
theorem wellTyped_perform (hs : s.config.Sound) (hw : s.config.WellTyped)
    (below : ∀ draft, a = .commit draft → draft.children.Everywhere Rose.WellTyped) :
    (s.perform a).config.WellTyped := by
  have effect := effect_perform s a
  generalize (s.perform a).config = after at effect ⊢
  cases effect with
  | nothing => exact hw
  | added h => exact h.wellTyped hs hw (below _ rfl)
  | edited h => exact hw.edited hs h.admitted (below _ rfl) _
  | deleted => exact Configuration.wellTyped_kept.deleted hw.1 hw.2 _ _ _ _

/-- **Types over a run.** In a session whose trees are well-typed they are well-typed after a run, if
the nodes below the top of each of its drafts are. -/
theorem wellTyped_run (hs : s.config.Sound) (hw : s.config.WellTyped)
    (below : ∀ draft, .commit draft ∈ actions → draft.children.Everywhere Rose.WellTyped) :
    (s.run actions).config.WellTyped := by
  have kept : (s.run actions).config.Sound ∧ (s.run actions).config.WellTyped := by
    refine run_induction (P := fun s => s.config.Sound ∧ s.config.WellTyped) ⟨hs, hw⟩ ?_
    intro s a inside ⟨hs, hw⟩
    exact ⟨sound_perform hs a, wellTyped_perform hs hw fun draft same => below draft (same ▸ inside)⟩
  exact kept.2

/-- A number is made a boolean, which is refused since it keeps its value, and then an array of two
texts, whose draft has a value of its own. -/
def retypeToArray : List Action :=
  [.compose ⟨.default, 1⟩ true, .commit ⟨{ key := "a", type := .boolean, value := some (.number (.int 1)) }, .nil⟩,
    .commit ⟨{ key := "a", type := .array, value := some (.string "none") },
      .ofRoots [Draft.scalar "" (.string "x"), Draft.scalar "" (.string "y")]⟩]

theorem wellTyped_run_retypeToArray :
    overriddenBeside.config.Sound ∧ overriddenBeside.config.WellTyped ∧
      (∀ draft, .commit draft ∈ retypeToArray → draft.children.Everywhere Rose.WellTyped) ∧
      (overriddenBeside.run retypeToArray).config.default.itemType? 1 = some .string ∧
      (overriddenBeside.run retypeToArray).config.WellTyped := by
  have sound : overriddenBeside.config.Sound := by decide +kernel
  have typed : overriddenBeside.config.WellTyped := ⟨by decide +kernel, by decide +kernel⟩
  have below : ∀ draft, .commit draft ∈ retypeToArray → draft.children.Everywhere Rose.WellTyped := by
    intro draft inside
    simp only [retypeToArray, List.mem_cons, reduceCtorEq, Action.commit.injEq, List.not_mem_nil,
      or_false, false_or] at inside
    rcases inside with rfl | rfl <;> decide +kernel
  exact ⟨sound, typed, below, by decide +kernel, wellTyped_run sound typed below⟩

end Session

end LayeredConfig
