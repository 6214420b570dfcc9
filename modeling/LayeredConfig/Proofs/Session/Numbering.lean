import LayeredConfig.Proofs.Session.Aligned
import LayeredConfig.Proofs.Tree.Numbering

/-!
# Positions over a run of a session

New items get the next position, and the items left by a deletion are numbered anew. Two edits miss the
positions (`Misplaces`): a node that becomes an array keeps its children under the keys that they had,
and a renamed default node takes its overrides with it, also those that are items of an array. Every
other step keeps the items of all arrays numbered, and each of the two ends it
(`numbered_perform_iff`), so a run keeps them numbered iff it has no such step (`numbered_run_iff`).
-/

namespace LayeredConfig

namespace Configuration

variable {c : Configuration} {t : Tree} {n : NodeRef} {h above : Handle} {live : NodeData} {m : Markers}
  {draft new : Draft}

/-- In both trees the items of every array are keyed by their positions. -/
def Numbered (c : Configuration) : Prop := c.default.Numbered ∧ c.environments.Numbered

instance (c : Configuration) : Decidable c.Numbered :=
  inferInstanceAs (Decidable (c.default.Numbered ∧ c.environments.Numbered))

/-- A node becomes an array, and its children are not keyed by their positions. -/
def MakesArray (t : Tree) (h : Handle) (live new : NodeData) : Prop :=
  live.type ≠ .array ∧ new.type = .array ∧ ¬t.InPositions h

/-- A default node is renamed, and an override of it is an item of an array. -/
def RenamesItem (c : Configuration) (n : NodeRef) (live new : NodeData) : Prop :=
  (n.tree = .default ∧ (c.default.parent? n.handle).isSome) ∧ live.type = new.type ∧
    live.key ≠ new.key ∧
    ∃ o ∈ c.environments.overrides (c.default.alignedPath n.handle), c.environments.isItem o

theorem Numbered.tree {kind : TreeKind} (hn : c.Numbered) (ht : c.tree? kind = some t) : t.Numbered :=
  of_both (P := Tree.Numbered) hn.1 hn.2 ht

theorem numbered_alignAnchor_iff (c : Configuration) (old new : Option String) :
    (c.alignAnchor old new).Numbered ↔ c.Numbered :=
  and_congr (sameWays_alignAnchor c old new).1.numbered_iff (sameWays_alignAnchor c old new).2.numbered_iff

theorem numbered_kept : KeptByRemoval fun t => t.Sound ∧ t.Numbered where
  remove _ h ht := ⟨ht.1.remove h, ht.2.remove ht.1 h⟩
  removeAlias t name ht := by
    have same : t.SameWays (t.removeAlias name).1 :=
      Tree.sameWays_modifyAll (f := fun d => { d with aliases := d.aliases.filter (· ≠ name) })
        (fun _ => rfl) (fun _ => rfl) t
    exact ⟨sound_kept.removeAlias t name ht.1, same.numbered_iff.2 ht.2⟩

/-! ## The draft that is written -/

/-- The children of the node stay, unless it becomes a scalar. -/
theorem numbered_writeDraft_iff (ht : t.Sound) (hn : t.Numbered) (hd : t.data? h = some live)
    (item : t.isItem h → new.label.key = live.key) (leaf : new.children = .nil) :
    (writeDraft t h new).Numbered ↔ (new.label.type = .array → t.InPositions h) := by
  rw [← Tree.numbered_write_iff ht hn hd item]
  rw [writeDraft_leaf leaf]
  split
  · rename_i scalar
    have written : (t.modify h fun _ => new.label).Numbered :=
      (Tree.numbered_write_iff ht hn hd item).2 fun array => by rw [array] at scalar; cases scalar
    exact iff_of_true (written.clear h) written
  · rfl

theorem admittedEdit_type (ha : admittedEdit t n live draft = .ok new)
    (override : n.tree ≠ .default) : new.label.type = live.type := by
  unfold admittedEdit at ha
  dsimp only at ha
  rw [if_pos (Or.inr override)] at ha
  cases hp : t.parent? n.handle with
  | none =>
    rw [hp] at ha
    exact Draft.sanitized_type ha
  | some p =>
    rw [hp] at ha
    obtain ⟨-, ha⟩ := Outcome.check_eq_ok.1 ha
    exact Draft.sanitized_type ha

/-- The default tree before a draft is written has the keys and types that it had, or the node was an
array and is empty. -/
theorem default_alignEdit_sameWays (hd : c.default.data? n.handle = some live) (new : NodeData)
    (m : Markers) :
    c.default.SameWays (c.alignEdit n live new m).default ∨
      live.type = .array ∧ (c.alignEdit n live new m).default = c.default.clear n.handle := by
  unfold alignEdit
  split
  · split
    · unfold alignTypeChange
      dsimp only
      split
      · rename_i array
        rw [Tree.isArray, hd] at array
        exact Or.inr ⟨beq_iff_eq.1 array, rfl⟩
      · exact Or.inl (.refl _)
    · split
      · exact Or.inl (default_alignKeyRename_sameWays _ _ _ m)
      · exact Or.inl (.refl _)
  · exact Or.inl (.refl _)

/-- The default tree after an edit of one of its nodes. -/
theorem numbered_default_edited_iff (hc : c.Sound) (hn : c.Numbered)
    (hd : c.default.data? n.handle = some live) (ha : admittedEdit c.default n live draft = .ok new)
    (leaf : new.children = .nil) (m : Markers) :
    (writeDraft (c.alignEdit n live new.label m).default n.handle new).Numbered ↔
      ¬MakesArray c.default n.handle live new.label := by
  have here := numbered_writeDraft_iff hc.1 hn.1 hd (admittedEdit_kept ha).2 leaf
  have made : (new.label.type = .array → c.default.InPositions n.handle) ↔
      ¬MakesArray c.default n.handle live new.label := by
    unfold MakesArray
    by_cases array : live.type = .array
    · exact iff_of_true (fun _ => hn.1.inPositions hd array) fun makes => makes.1 array
    · simp [array]
  rcases default_alignEdit_sameWays hd new.label m with same | ⟨array, cleared⟩
  · rw [(sameWays_writeDraft same n.handle leaf).numbered_iff, here, made]
  · have written : (writeDraft c.default n.handle new).Numbered :=
      here.2 fun _ => hn.1.inPositions hd array
    rw [cleared, writeDraft_clear leaf]
    exact iff_of_true (written.clear _) fun makes => makes.1 array

/-! ## Renamed overrides -/

theorem numbered_environments_alignEdit_iff (hc : c.Sound) (hn : c.Numbered)
    (hd : c.default.data? n.handle = some live)
    (ha : admittedEdit c.default n live draft = .ok new) :
    (c.alignEdit n live new.label m).environments.Numbered ↔ ¬c.RenamesItem n live new.label := by
  unfold alignEdit RenamesItem
  by_cases below : n.tree = .default ∧ (c.default.parent? n.handle).isSome
  · rw [if_pos below]
    by_cases type : live.type = new.label.type
    · rw [if_neg (not_not.2 type)]
      by_cases key : live.key = new.label.key
      · rw [if_neg (not_not.2 key)]
        exact iff_of_true hn.2 fun h => h.2.2.1 key
      · -- a node that is renamed is no item, so its path ends with its key, and so do its overrides
        obtain ⟨p, hp⟩ := Option.isSome_iff_exists.1 below.2
        have named (o : Handle) (ho : o ∈ c.environments.overrides (c.default.alignedPath n.handle)) :
            c.environments.key? o = some live.key := by
          obtain ⟨r, hr, e, he, same⟩ := Tree.mem_children_iff.1 (hc.1.parent?_eq_some_iff.1 hp)
          have inside := Tree.find?_mem hr
          have object : r.label.data.type ≠ .array := fun array =>
            key ((admittedEdit_kept ha).2 (same ▸ (hc.1.isItem_iff inside he).2 array)).symm
          have known := hc.1.data?_of_child inside he
          rw [same, hd] at known
          obtain ⟨path, hpath⟩ := hc.1.alignedPath_concat inside he
          rw [Tree.alignedKey, if_neg object, same, ← Option.some.inj known] at hpath
          rw [hpath] at ho
          exact hn.2.key_of_override hc.2 ho
        rw [if_pos key, (environments_alignKeyRename_sameWays hd new.label.key m).numbered_iff,
          Tree.numbered_keyedAs_iff hc.2 hn.2, and_iff_right below, and_iff_right type,
          and_iff_right key]
        · simp
        · intro o ho _ same
          exact key (Option.some.inj ((named o ho).symm.trans same))
    · rw [if_pos type]
      exact iff_of_true (numbered_kept.removeOverrides ⟨hc.2, hn.2⟩ _).2 fun h => type h.2.1
  · rw [if_neg below]
    exact iff_of_true hn.2 fun h => below h.1

/-! ## Edits -/

/-- An edit keeps the items numbered iff it neither makes an array of a node whose children are not in
their positions nor renames an item with the default node that it overrides. -/
theorem numbered_edited_iff (hc : c.Sound) (hn : c.Numbered) (ht : c.tree? n.tree = some t)
    (hd : t.data? n.handle = some live) (ha : admittedEdit t n live draft = .ok new)
    (leaf : draft.isLeaf) (m : Markers) :
    (c.edited n live new m).Numbered ↔
      ¬MakesArray t n.handle live new.label ∧ ¬c.RenamesItem n live new.label := by
  have children := (admittedEdit_ok ha).1 leaf
  unfold edited
  rw [numbered_alignAnchor_iff]
  cases htree : n.tree with
  | default =>
    rw [htree] at ht
    cases ht
    exact and_congr (numbered_default_edited_iff hc hn hd ha children m)
      (numbered_environments_alignEdit_iff hc hn hd ha)
  | environments =>
    rw [htree] at ht
    cases ht
    have type := admittedEdit_type ha (by rw [htree]; nofun)
    have same : c.alignEdit n live new.label m = c := by
      unfold alignEdit
      exact if_neg fun below => by rw [htree] at below; cases below.1
    rw [same]
    refine iff_of_true ⟨hn.1, ?_⟩ ⟨fun makes => makes.1 (type ▸ makes.2.1), fun renames => ?_⟩
    · exact (numbered_writeDraft_iff hc.2 hn.2 hd (admittedEdit_kept ha).2 children).2 fun array =>
        hn.2.inPositions hd (type ▸ array)
    · have default := renames.1.1
      rw [htree] at default
      cases default
  | detached =>
    rw [htree] at ht
    cases ht

end Configuration

/-! ## Steps and runs -/

namespace Session

variable {s : Session} {a : Action} {actions : List Action}

/-- A step that leaves an array with items that are not keyed by their positions. -/
inductive Misplaces (s : Session) : Action → Prop
  /-- A node becomes an array and keeps its children under their keys. -/
  | array {draft : Draft} {n : NodeRef} {t : Tree} {live : NodeData} {new : Draft}
    (h : s.Edits draft n t live new) (makes : Configuration.MakesArray t n.handle live new.label) :
    Misplaces s (.commit draft)
  /-- A default node is renamed, and an override of it is an item of an array. -/
  | override {draft : Draft} {n : NodeRef} {t : Tree} {live : NodeData} {new : Draft}
    (h : s.Edits draft n t live new) (renames : s.config.RenamesItem n live new.label) :
    Misplaces s (.commit draft)

/-- New nodes and deletions keep the items numbered. -/
theorem numbered_added {draft : Draft} {parent : NodeRef} {t : Tree} {data : NodeData} {new : Draft}
    (hs : s.config.Sound) (hn : s.config.Numbered) (h : s.Adds draft parent t data new)
    (leaf : draft.isLeaf) :
    (s.config.mapTree parent.tree fun t => (t.graft parent.handle new).1).Numbered := by
  obtain ⟨children, key⟩ := Configuration.admittedBelow_ok h.admitted
  have new_eq : new = ⟨new.label, .nil⟩ := by rw [← children leaf]
  rw [new_eq]
  refine Configuration.mapTree_both (P := Tree.Numbered) hn.1 hn.2 fun t' ht' => ?_
  cases ht'.symm.trans h.tree
  refine (hn.tree ht').graft_leaf (hs.tree ht') h.known fun array => ?_
  rwa [if_pos array] at key

/-- **One step.** Items that are numbered are numbered after a step iff the step misplaces none. -/
theorem numbered_perform_iff (hs : s.config.Sound) (hn : s.config.Numbered)
    (leaf : ∀ draft, a = .commit draft → draft.isLeaf) :
    (s.perform a).config.Numbered ↔ ¬s.Misplaces a := by
  constructor
  · rintro after (⟨h, makes⟩ | ⟨h, renames⟩)
    · rw [h.config_perform] at after
      exact ((Configuration.numbered_edited_iff hs hn h.tree h.known h.admitted (leaf _ rfl) _).1
        after).1 makes
    · rw [h.config_perform] at after
      exact ((Configuration.numbered_edited_iff hs hn h.tree h.known h.admitted (leaf _ rfl) _).1
        after).2 renames
  · intro fine
    have effect := effect_perform s a
    generalize (s.perform a).config = after at effect ⊢
    cases effect with
    | nothing => exact hn
    | added h => exact numbered_added hs hn h (leaf _ rfl)
    | edited h =>
      exact (Configuration.numbered_edited_iff hs hn h.tree h.known h.admitted (leaf _ rfl) _).2
        ⟨fun makes => fine (.array h makes), fun renames => fine (.override h renames)⟩
    | deleted =>
      have kept := Configuration.numbered_kept.deleted ⟨hs.1, hn.1⟩ ⟨hs.2, hn.2⟩
      exact ⟨(kept _ _ _ _).1.2, (kept _ _ _ _).2.2⟩

/-- **Positions over a run.** In a session whose arrays have their items keyed by their positions they
have them so after every step of a run, the drafts of which have no children, iff no step of the run
misplaces an item. -/
theorem numbered_run_iff (hs : s.config.Sound) (hn : s.config.Numbered)
    (leaf : ∀ draft, .commit draft ∈ actions → draft.isLeaf) :
    (∀ before, before <+: actions → (s.run before).config.Numbered) ↔
      ∀ before a, before ++ [a] <+: actions → ¬(s.run before).Misplaces a := by
  refine forall_run_iff (P := fun s => s.config.Numbered) hn fun before a inside numbered => ?_
  have sound : (s.run before).config.Sound :=
    run_induction (P := fun s => s.config.Sound) hs fun _ a _ h => sound_perform h a
  refine numbered_perform_iff sound numbered ?_
  rintro draft rfl
  exact leaf draft (inside.subset (List.mem_append_right _ List.mem_cons_self))

/-- A default object. -/
def objectOfOne : Session := overriding [.object "a" [.number "x" 1]] []

/-- The object is made an array. -/
def makeArray : List Action :=
  [.compose ⟨.default, 1⟩ true, .commit ⟨{ key := "a", type := .array }, .nil⟩]

theorem makeArray_isLeaf : ∀ draft, .commit draft ∈ makeArray → draft.isLeaf := by
  intro draft inside
  rcases List.mem_cons.1 inside with same | inside
  · cases same
  · cases List.mem_singleton.1 inside
    rfl

/-- The run misplaces an item, since it does not keep the items numbered. -/
theorem numbered_run_iff_makeArray :
    objectOfOne.config.Sound ∧ objectOfOne.config.Numbered ∧
      ∃ before a, before ++ [a] <+: makeArray ∧ (objectOfOne.run before).Misplaces a := by
  have sound : objectOfOne.config.Sound := by decide +kernel
  have numbered : objectOfOne.config.Numbered := by decide +kernel
  refine ⟨sound, numbered, ?_⟩
  by_contra none
  have all := (numbered_run_iff sound numbered makeArray_isLeaf).2 fun before a inside misplaces =>
    none ⟨before, a, inside, misplaces⟩
  have after := all makeArray (List.prefix_refl _)
  revert after
  decide +kernel

/-- The array has an item `x`. A default property `[0]` is renamed, and its override goes with it, which
is an item. -/
theorem items_out_of_position :
    (objectOfOne.config.Numbered ∧ (∀ draft, .commit draft ∈ makeArray → draft.isLeaf) ∧
        ¬(objectOfOne.run makeArray).config.Numbered) ∧
      let s := overriding [.object "o" [.number "[0]" 1]] [.array "o" [.number "" 2]]
      s.config.Numbered ∧
        ¬(s.run [.compose ⟨.default, 2⟩ true, .commit (.number "p" 1)]).config.Numbered :=
  ⟨⟨by decide +kernel, makeArray_isLeaf, by decide +kernel⟩, by decide +kernel, by decide +kernel⟩

end Session

end LayeredConfig
