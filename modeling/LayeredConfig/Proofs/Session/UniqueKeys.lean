import LayeredConfig.Proofs.Outcome
import LayeredConfig.Proofs.Session.Steps
import LayeredConfig.Proofs.Tree.Keys
import LayeredConfig.Proofs.Tree.Overrides
import Mathlib.Data.List.Induction

/-!
# Sibling keys over a run of a session

A session keeps sibling keys distinct except in two places, where a node gets a key without a look
at its new siblings (`Clash`): an array takes a new item under the position after its last, though
an item may bear that position as its key already, and a renamed default node takes its overrides
with it, whoever their siblings are. Every step but these two keeps the keys distinct, and each of
the two ends it (`uniqueKeys_perform_iff`), so a run keeps them distinct iff it has no such step
(`uniqueKeys_run_iff`).
-/

namespace LayeredConfig

/-! ## Admitted drafts -/

namespace Draft

variable {draft new : Draft}

theorem sanitized_key (h : draft.sanitized = .ok new) : new.label.key = draft.label.key := by
  unfold sanitized at h
  dsimp only at h
  split at h
  · cases h
    rfl
  · split at h
    · split at h
      · cases h
        rfl
      · cases h
    · cases h
      rfl

theorem sanitized_nil (h : draft.sanitized = .ok new) (leaf : draft.children = .nil) :
    new.children = .nil := by
  unfold sanitized at h
  rw [leaf] at h
  dsimp only at h
  split at h
  · cases h
    split <;> rfl
  · split at h
    · split at h
      · cases h
        rfl
      · cases h
    · cases h
      rfl

theorem children_of_isLeaf (h : draft.isLeaf) : draft.children = .nil := by
  unfold isLeaf at h
  cases hc : draft.children with
  | nil => rfl
  | cons a cs ss =>
    rw [hc] at h
    cases h

end Draft

namespace Configuration

variable {t : Tree} {n : NodeRef} {h parent : Handle} {data live : NodeData} {path : String}
  {draft new : Draft}

theorem admittedBelow_sanitized (ha : admittedBelow t parent data path draft = .ok new) :
    data.type.isScalar = false ∧
      ∃ key, Draft.sanitized ⟨{ draft.label with key }, draft.children⟩ = .ok new := by
  unfold admittedBelow at ha
  obtain ⟨container, ha⟩ := Outcome.check_eq_ok.1 ha
  obtain ⟨-, ha⟩ := Outcome.check_eq_ok.1 ha
  exact ⟨Bool.eq_false_iff.2 container, _, ha⟩

theorem admittedEdit_sanitized (ha : admittedEdit t n live draft = .ok new) :
    ∃ key type, Draft.sanitized ⟨{ draft.label with key, type }, draft.children⟩ = .ok new := by
  unfold admittedEdit at ha
  dsimp only at ha
  cases hp : t.parent? n.handle with
  | none =>
    rw [hp] at ha
    exact ⟨_, _, ha⟩
  | some p =>
    rw [hp] at ha
    obtain ⟨-, ha⟩ := Outcome.check_eq_ok.1 ha
    exact ⟨_, _, ha⟩

/-- Only a new item of an array gets a key that was not looked for among its siblings. -/
theorem admittedBelow_ok (ha : admittedBelow t parent data path draft = .ok new) :
    (draft.isLeaf → new.children = .nil) ∧
      if data.type = .array then new.label.key = itemKey (t.children parent).length
      else t.child? parent new.label.key = none := by
  unfold admittedBelow at ha
  obtain ⟨-, ha⟩ := Outcome.check_eq_ok.1 ha
  obtain ⟨free, ha⟩ := Outcome.check_eq_ok.1 ha
  refine ⟨fun leaf => Draft.sanitized_nil ha (Draft.children_of_isLeaf leaf), ?_⟩
  rw [Draft.sanitized_key ha]
  split
  · rfl
  · rename_i object
    refine Option.not_isSome_iff_eq_none.1 fun taken => free ⟨object, ?_⟩
    rw [if_neg object]
    exact taken

/-- A node keeps its key, or its new key was looked for among its siblings. -/
theorem admittedEdit_ok (ha : admittedEdit t n live draft = .ok new) :
    (draft.isLeaf → new.children = .nil) ∧
      (t.parent? n.handle = none → new.label.key = live.key) ∧
      (new.label.key = live.key ∨
        ∀ p, t.parent? n.handle = some p → t.child? p new.label.key = none) := by
  unfold admittedEdit at ha
  dsimp only at ha
  cases hp : t.parent? n.handle with
  | none =>
    rw [hp] at ha
    have key := Draft.sanitized_key ha
    simp only [Option.isNone_none, true_or, if_true] at key
    exact ⟨fun leaf => Draft.sanitized_nil ha (Draft.children_of_isLeaf leaf), fun _ => key,
      Or.inl key⟩
  | some p =>
    rw [hp] at ha
    obtain ⟨free, ha⟩ := Outcome.check_eq_ok.1 ha
    refine ⟨fun leaf => Draft.sanitized_nil ha (Draft.children_of_isLeaf leaf),
      fun root => (by cases root), ?_⟩
    rw [Draft.sanitized_key ha]
    by_cases same : (if (some p).isNone = true ∨ t.isItem n.handle = true then live.key
        else draft.label.key) = live.key
    · exact Or.inl same
    · refine Or.inr fun q hq => Option.not_isSome_iff_eq_none.1 fun taken => free ⟨same, ?_⟩
      cases hq
      exact taken

/-! ## Both trees -/

variable {c c' : Configuration} {kind : TreeKind} {f : Tree → Tree} {m : Markers}

/-- The handles of both trees name one node each. -/
def Sound (c : Configuration) : Prop := c.default.Sound ∧ c.environments.Sound

instance (c : Configuration) : Decidable c.Sound :=
  inferInstanceAs (Decidable (c.default.Sound ∧ c.environments.Sound))

/-- Both trees have the same handles under the same keys. -/
structure SameKeys (c c' : Configuration) : Prop where
  default : c.default.SameKeys c'.default
  environments : c.environments.SameKeys c'.environments

theorem SameKeys.sound (same : c.SameKeys c') (hc : c.Sound) : c'.Sound :=
  ⟨same.default.sound hc.1, same.environments.sound hc.2⟩

theorem SameKeys.uniqueKeys_iff (same : c.SameKeys c') : c'.UniqueKeys ↔ c.UniqueKeys :=
  and_congr same.default.uniqueKeys_iff same.environments.uniqueKeys_iff

/-- What both trees satisfy, the tree of a kind does. -/
theorem of_both {P : Tree → Prop} (hd : P c.default) (he : P c.environments)
    (ht : c.tree? kind = some t) : P t := by
  cases kind with
  | default => cases ht; exact hd
  | environments => cases ht; exact he
  | detached => cases ht

/-- What both trees satisfy, they do after a change of one that keeps it. -/
theorem mapTree_both {P : Tree → Prop} (hd : P c.default) (he : P c.environments)
    (hf : ∀ t, c.tree? kind = some t → P (f t)) :
    P (c.mapTree kind f).default ∧ P (c.mapTree kind f).environments := by
  cases kind with
  | default => exact ⟨hf _ rfl, he⟩
  | environments => exact ⟨hd, hf _ rfl⟩
  | detached => exact ⟨hd, he⟩

theorem Sound.tree (hc : c.Sound) (ht : c.tree? kind = some t) : t.Sound := of_both hc.1 hc.2 ht

theorem UniqueKeys.tree (hc : c.UniqueKeys) (ht : c.tree? kind = some t) : t.UniqueKeys :=
  of_both hc.1 hc.2 ht

theorem Sound.mapTree (hc : c.Sound) (hf : ∀ t, c.tree? kind = some t → (f t).Sound) :
    (c.mapTree kind f).Sound := mapTree_both hc.1 hc.2 hf

theorem uniqueKeys_mapTree_iff (hc : c.UniqueKeys) (ht : c.tree? kind = some t) :
    (c.mapTree kind f).UniqueKeys ↔ (f t).UniqueKeys := by
  cases kind with
  | default => cases ht; exact and_iff_left hc.2
  | environments => cases ht; exact and_iff_right hc.1
  | detached => cases ht

theorem sameKeys_alignAnchor (c : Configuration) (old new : Option String) :
    c.SameKeys (c.alignAnchor old new) := by
  unfold alignAnchor
  split
  · split
    · exact ⟨c.default.sameKeys_renameAlias _ _, c.environments.sameKeys_renameAlias _ _⟩
    · exact ⟨.refl _, .refl _⟩
  · exact ⟨c.default.sameKeys_removeAlias _, c.environments.sameKeys_removeAlias _⟩
  · exact ⟨.refl _, .refl _⟩

/-! ## Deletions -/

/-- What removing nodes and aliases keeps, deleting and removing overrides keep. -/
structure KeptByRemoval (P : Tree → Prop) : Prop where
  remove : ∀ t h, P t → P (t.remove h).1
  removeAlias : ∀ t name, P t → P (t.removeAlias name).1

theorem sound_kept : KeptByRemoval Tree.Sound where
  remove _ h ht := ht.remove h
  removeAlias t name ht := (t.sameKeys_removeAlias name).sound ht

theorem uniqueKeys_kept : KeptByRemoval Tree.UniqueKeys where
  remove _ h ht := ht.remove h
  removeAlias t name ht := (t.sameKeys_removeAlias name).uniqueKeys_iff.2 ht

variable {P : Tree → Prop}

theorem KeptByRemoval.removeOverrides (kept : KeptByRemoval P) (ht : P t) (path : List String) :
    P (t.removeOverrides path).1 :=
  List.foldlRecOn (motive := P) _ _ ht fun t ht h _ => kept.remove t h ht

theorem KeptByRemoval.deleted (kept : KeptByRemoval P) (hd : P c.default) (he : P c.environments)
    (n : NodeRef) (t : Tree) (data : NodeData) (parent : Handle) :
    P (c.deleted n t data parent).default ∧ P (c.deleted n t data parent).environments := by
  have removed : P (c.mapTree n.tree fun t => (t.remove n.handle).1).default ∧
      P (c.mapTree n.tree fun t => (t.remove n.handle).1).environments :=
    mapTree_both hd he fun t ht => kept.remove t _ (of_both hd he ht)
  unfold Configuration.deleted
  dsimp only
  generalize c.mapTree n.tree (fun t => (t.remove n.handle).1) = c₁ at removed ⊢
  have aligned : ∀ c₂ : Configuration, P c₂.default ∧ P c₂.environments →
      P (if n.tree = .default ∧ !t.isArray parent then
          (c₂.alignDeletion (t.alignedPath n.handle)).1 else c₂).default ∧
        P (if n.tree = .default ∧ !t.isArray parent then
          (c₂.alignDeletion (t.alignedPath n.handle)).1 else c₂).environments := by
    intro c₂ cleaned
    split
    · exact ⟨cleaned.1, kept.removeOverrides cleaned.2 _⟩
    · exact cleaned
  cases data.anchor with
  | none => exact aligned _ removed
  | some anchor =>
    exact aligned _ ⟨kept.removeAlias _ _ removed.1, kept.removeAlias _ _ removed.2⟩

/-! ## Renamed overrides -/

/-- An override of a renamed default node has a sibling that bears the new name. -/
def RenamesOnto (c : Configuration) (n : NodeRef) (live new : NodeData) : Prop :=
  (n.tree = .default ∧ (c.default.parent? n.handle).isSome) ∧ live.type = new.type ∧
    live.key ≠ new.key ∧
    ∃ o ∈ c.environments.overrides (c.default.alignedPath n.handle), ∃ p sibling,
      c.environments.parent? o = some p ∧ c.environments.child? p new.key = some sibling ∧
        sibling ≠ o

/-- Overrides get a new key and keep distinct keys iff none has a sibling of that key. -/
theorem uniqueKeys_alignOverrides_iff (ht : t.Sound) (hu : t.UniqueKeys) (path : List String)
    (key : String) :
    (t.alignOverrides path fun t h => t.modify h fun d => { d with key }).1.UniqueKeys ↔
      ¬∃ o ∈ t.overrides path, ∃ p sibling,
        t.parent? o = some p ∧ t.child? p key = some sibling ∧ sibling ≠ o := by
  have one : ∀ r ∈ t.forest.subtrees, ∀ a ∈ r.children.rootLabels, ∀ b ∈ r.children.rootLabels,
      a.handle ∈ t.overrides path → b.handle ∈ t.overrides path → a = b := by
    intro r hr a ha b hb oa ob
    refine ht.eq_of_handle (Forest.mem_preorder_of_child hr ha) (Forest.mem_preorder_of_child hr hb) ?_
    exact ht.overrides_apart oa ob
      ((ht.parent?_of_child hr ha).trans (ht.parent?_of_child hr hb).symm)
  unfold Tree.alignOverrides
  dsimp only
  rw [Tree.foldl_modify (f := fun d => { d with key }) (Or.inr fun _ => rfl),
    Tree.uniqueKeys_rename_iff hu (g := fun d => { d with key }) (fun _ => rfl) one, not_exists]
  constructor
  · rintro free o ⟨ho, p, sibling, hp, hs, other⟩
    obtain ⟨r, hr, a, ha, rfl⟩ := Tree.mem_children_iff.1 (ht.parent?_eq_some_iff.1 hp)
    rw [Tree.child?, Tree.below_of_find? hr] at hs
    obtain ⟨x, hx, rfl⟩ := Option.map_eq_some_iff.1 hs
    have hb := Forest.label_mem_rootLabels (Forest.findRoot?_mem hx)
    have inside := Tree.find?_mem hr
    refine free r inside a ha ho x.label hb (fun again => other ?_)
      (Tree.key_of_findRoot? hx)
    rw [one r inside _ hb a ha again ho]
  · intro free r hr a ha ho b hb other same
    refine free a.handle ⟨ho, r.label.handle, b.handle, ht.parent?_of_child hr ha, ?_, ?_⟩
    · have distinct := Tree.uniqueKeys_iff.1 hu r hr
      rw [Forest.rootLabels_eq_map_roots] at hb
      obtain ⟨x, hx, rfl⟩ := List.mem_map.1 hb
      rw [Tree.child?, Tree.below_of_find? (ht.find?_of_mem hr), ← same,
        @Forest.findRoot?_of_mem Entry (·.data.key) _ ?_ _ hx]
      · rfl
      · rw [Forest.rootKeys_eq_map_rootLabels]
        exact distinct
    · intro handles
      exact other (handles ▸ ho)

/-- Of the two trees the alignment leaves the default one with its keys, less the items of an array
that changes its type. -/
theorem default_alignEdit (c : Configuration) (n : NodeRef) (live new : NodeData) (m : Markers) :
    c.default.SameKeys (c.alignEdit n live new m).default ∨
      (c.alignEdit n live new m).default = c.default.clear n.handle := by
  unfold alignEdit
  split
  · split
    · unfold alignTypeChange
      dsimp only
      split
      · exact Or.inr rfl
      · exact Or.inl (.refl _)
    · split
      · unfold alignKeyRename
        split
        · exact Or.inl (.refl _)
        · exact Or.inl (c.default.sameKeys_renameReferences _ _ _ _)
      · exact Or.inl (.refl _)
  · exact Or.inl (.refl _)

theorem environments_alignKeyRename {h : Handle} {old : String} (hk : c.default.key? h = some old)
    (new : String) (m : Markers) :
    (c.environments.alignOverrides (c.default.alignedPath h) fun t found =>
        t.modify found fun d => { d with key := new }).1.SameKeys
      (c.alignKeyRename h new m).1.environments := by
  unfold alignKeyRename
  rw [hk]
  exact Tree.sameKeys_renameReferences _ _ _ _ _

theorem uniqueKeys_environments_alignEdit_iff (hc : c.Sound) (hu : c.UniqueKeys)
    (hd : c.data? n = some live) (new : NodeData) (m : Markers) :
    (c.alignEdit n live new m).environments.UniqueKeys ↔ ¬c.RenamesOnto n live new := by
  unfold alignEdit RenamesOnto
  by_cases below : n.tree = .default ∧ (c.default.parent? n.handle).isSome
  · rw [if_pos below]
    by_cases type : live.type = new.type
    · rw [if_neg (not_not.2 type)]
      by_cases key : live.key = new.key
      · rw [if_neg (not_not.2 key)]
        exact iff_of_true hu.2 fun h => h.2.2.1 key
      · have hk : c.default.key? n.handle = some live.key := by
          rw [data?, below.1] at hd
          rw [Tree.key?, show c.default.data? n.handle = some live from hd, Option.map_some]
        rw [if_pos key, (environments_alignKeyRename hk new.key m).uniqueKeys_iff,
          uniqueKeys_alignOverrides_iff hc.2 hu.2, and_iff_right below, and_iff_right type,
          and_iff_right key]
    · rw [if_pos type]
      exact iff_of_true (uniqueKeys_kept.removeOverrides hu.2 _) fun h => type h.2.1
  · rw [if_neg below]
    exact iff_of_true hu.2 fun h => below h.1

theorem sound_alignEdit (hc : c.Sound) (n : NodeRef) (live new : NodeData) (m : Markers) :
    (c.alignEdit n live new m).Sound := by
  constructor
  · rcases c.default_alignEdit n live new m with same | cleared
    · exact same.sound hc.1
    · rw [cleared]
      exact hc.1.clear _
  · unfold alignEdit
    split
    · split
      · exact sound_kept.removeOverrides hc.2 _
      · split
        · unfold alignKeyRename
          split
          · exact hc.2
          · refine (Tree.sameKeys_renameReferences _ _ _ _ _).sound ?_
            exact List.foldlRecOn (motive := Tree.Sound) _ _ hc.2 fun _ ht h _ => ht.modify h _
        · exact hc.2
    · exact hc.2

/-! ## Written drafts -/

theorem sound_writeDraft (ht : t.Sound) (h : Handle) (draft : Draft) :
    (writeDraft t h draft).Sound := by
  unfold writeDraft
  dsimp only
  split
  · exact (ht.modify h _).clear h
  · split
    · exact ht.modify h _
    · exact (ht.modify h _).replace h _

/-- A draft without children brings its data, and empties the node if it is a scalar. -/
theorem writeDraft_leaf {new : Draft} (leaf : new.children = .nil) (t : Tree) (h : Handle) :
    writeDraft t h new =
      if new.label.type.isScalar then (t.modify h fun _ => new.label).clear h
      else t.modify h fun _ => new.label := by
  unfold writeDraft
  dsimp only
  rw [leaf, Forest.isEmpty, if_pos rfl]

theorem uniqueKeys_writeDraft (hu : (t.modify h fun _ => draft.label).UniqueKeys)
    (leaf : draft.children = .nil) : (writeDraft t h draft).UniqueKeys := by
  rw [writeDraft_leaf leaf]
  split
  · exact hu.clear h
  · exact hu

/-- In the tree of the node that is edited sibling keys stay distinct. -/
theorem uniqueKeys_edited_tree (hc : c.Sound) (hu : c.UniqueKeys) (ht : c.tree? n.tree = some t)
    (hl : t.data? n.handle = some live) (ha : admittedEdit t n live draft = .ok new)
    (leaf : draft.isLeaf) {aligned : Tree}
    (hal : (c.alignEdit n live new.label m).tree? n.tree = some aligned) :
    (writeDraft aligned n.handle new).UniqueKeys := by
  obtain ⟨children, root, free⟩ := admittedEdit_ok ha
  have written : (t.modify n.handle fun _ => new.label).UniqueKeys :=
    (hu.tree ht).modify (hc.tree ht) hl free
  refine uniqueKeys_writeDraft ?_ (children leaf)
  cases htree : n.tree with
  | default =>
    rw [htree] at ht hal
    cases ht
    cases hal
    rcases c.default_alignEdit n live new.label m with same | cleared
    · exact same.modify.uniqueKeys_iff.2 written
    · rw [cleared, Tree.clear_modify]
      exact written.clear _
  | environments =>
    rw [htree] at ht hal
    have same : c.alignEdit n live new.label m = c := by
      unfold alignEdit
      exact if_neg fun below => by rw [htree] at below; cases below.1
    cases ht
    rw [same] at hal
    cases hal
    exact written
  | detached =>
    rw [htree] at ht
    cases ht

/-- An edit keeps sibling keys distinct iff it renames no override to the name of a sibling. -/
theorem uniqueKeys_edited_iff (hc : c.Sound) (hu : c.UniqueKeys) (ht : c.tree? n.tree = some t)
    (hl : t.data? n.handle = some live) (ha : admittedEdit t n live draft = .ok new)
    (leaf : draft.isLeaf) :
    (c.edited n live new m).UniqueKeys ↔ ¬c.RenamesOnto n live new.label := by
  rw [edited, (sameKeys_alignAnchor _ _ _).uniqueKeys_iff,
    ← uniqueKeys_environments_alignEdit_iff hc hu ((data?_of_tree? ht).trans hl) new.label m]
  have tree : ∀ {aligned : Tree}, (c.alignEdit n live new.label m).tree? n.tree = some aligned →
      (writeDraft aligned n.handle new).UniqueKeys := uniqueKeys_edited_tree hc hu ht hl ha leaf
  cases htree : n.tree with
  | default =>
    rw [htree] at tree
    exact and_iff_right (tree rfl)
  | environments =>
    rw [htree] at tree
    have same : c.alignEdit n live new.label m = c := by
      unfold alignEdit
      exact if_neg fun below => by rw [htree] at below; cases below.1
    rw [same] at tree ⊢
    exact iff_of_true ⟨hu.1, tree rfl⟩ hu.2
  | detached =>
    rw [htree] at ht
    cases ht

theorem sound_edited (hc : c.Sound) (n : NodeRef) (live : NodeData) (new : Draft) (m : Markers) :
    (c.edited n live new m).Sound := by
  refine (sameKeys_alignAnchor _ _ _).sound ((sound_alignEdit hc n live new.label m).mapTree ?_)
  intro t ht
  exact sound_writeDraft ((sound_alignEdit hc n live new.label m).tree ht) _ _

end Configuration

/-! ## Steps and runs -/

namespace Session

variable {s : Session} {a : Action}

/-- A step that puts a second node under a key among siblings. -/
inductive Clash (s : Session) : Action → Prop
  /-- An item of an array bears the position of the next item as its key. -/
  | position {draft : Draft} {parent : NodeRef} {t : Tree} {data : NodeData} {new : Draft}
    (h : s.Adds draft parent t data new) (array : data.type = .array)
    (taken : (t.child? parent.handle (itemKey (t.children parent.handle).length)).isSome) :
    Clash s (.commit draft)
  /-- A default node is renamed, and an override of it has a sibling of that name. -/
  | override {draft : Draft} {n : NodeRef} {t : Tree} {live : NodeData} {new : Draft}
    (h : s.Edits draft n t live new) (onto : s.config.RenamesOnto n live new.label) :
    Clash s (.commit draft)

theorem sound_perform (hs : s.config.Sound) (a : Action) : (s.perform a).config.Sound := by
  have effect := effect_perform s a
  generalize (s.perform a).config = after at effect ⊢
  cases effect with
  | nothing => exact hs
  | added => exact hs.mapTree fun t ht => (hs.tree ht).graft _ _
  | edited => exact Configuration.sound_edited hs _ _ _ _
  | deleted => exact Configuration.sound_kept.deleted hs.1 hs.2 _ _ _ _

/-- A new node keeps sibling keys distinct iff it is no item of an array that takes a key. -/
theorem uniqueKeys_added_iff {draft : Draft} {parent : NodeRef} {t : Tree} {data : NodeData}
    {new : Draft} (hs : s.config.Sound) (hu : s.config.UniqueKeys)
    (h : s.Adds draft parent t data new) (leaf : draft.isLeaf) :
    (s.config.mapTree parent.tree fun t => (t.graft parent.handle new).1).UniqueKeys ↔
      ¬(data.type = .array ∧
        (t.child? parent.handle (itemKey (t.children parent.handle).length)).isSome) := by
  obtain ⟨children, key⟩ := Configuration.admittedBelow_ok h.admitted
  have new_eq : new = ⟨new.label, .nil⟩ := by rw [← children leaf]
  rw [Configuration.uniqueKeys_mapTree_iff hu h.tree, new_eq,
    Tree.uniqueKeys_graft_iff (hs.tree h.tree) (hu.tree h.tree) (Tree.contains_of_data? h.known)]
  by_cases array : data.type = .array
  · rw [if_pos array] at key
    rw [and_iff_right array, key, Option.not_isSome_iff_eq_none]
  · rw [if_neg array] at key
    exact iff_of_true key fun h => array h.1

/-- **One step.** Sibling keys that are distinct are distinct after a step iff the step is no
clash. -/
theorem uniqueKeys_perform_iff (hs : s.config.Sound) (hu : s.config.UniqueKeys)
    (leaf : ∀ draft, a = .commit draft → draft.isLeaf) :
    (s.perform a).config.UniqueKeys ↔ ¬s.Clash a := by
  constructor
  · rintro after (⟨h, array, taken⟩ | ⟨h, onto⟩)
    · rw [h.config_perform] at after
      exact (uniqueKeys_added_iff hs hu h (leaf _ rfl)).1 after ⟨array, taken⟩
    · rw [h.config_perform] at after
      exact (Configuration.uniqueKeys_edited_iff hs hu h.tree h.known h.admitted (leaf _ rfl)).1 after
        onto
  · intro fine
    have effect := effect_perform s a
    generalize (s.perform a).config = after at effect ⊢
    cases effect with
    | nothing => exact hu
    | added h =>
      exact (uniqueKeys_added_iff hs hu h (leaf _ rfl)).2 fun ⟨array, taken⟩ =>
        fine (.position h array taken)
    | edited h =>
      exact (Configuration.uniqueKeys_edited_iff hs hu h.tree h.known h.admitted (leaf _ rfl)).2
        fun onto => fine (.override h onto)
    | deleted => exact Configuration.uniqueKeys_kept.deleted hu.1 hu.2 _ _ _ _

/-- **Sibling keys over a run.** In a session whose sibling keys are distinct they are distinct
after every step of a run, the drafts of which have no children, iff no step of the run is a
clash. -/
theorem uniqueKeys_run_iff (hs : s.config.Sound) (hu : s.config.UniqueKeys) {actions : List Action}
    (leaf : ∀ draft, .commit draft ∈ actions → draft.isLeaf) :
    (∀ before, before <+: actions → (s.run before).config.UniqueKeys) ↔
      ∀ before a, before ++ [a] <+: actions → ¬(s.run before).Clash a := by
  have sound : ∀ before, (s.run before).config.Sound := fun before =>
    run_induction (P := fun s => s.config.Sound) hs fun _ a _ h => sound_perform h a
  have leaves : ∀ before a, before ++ [a] <+: actions → ∀ draft, a = .commit draft → draft.isLeaf := by
    rintro before _ inside draft rfl
    exact leaf draft (inside.subset (List.mem_append_right _ List.mem_cons_self))
  constructor
  · intro unique before a inside
    have after := unique _ inside
    rw [run_concat] at after
    exact (uniqueKeys_perform_iff (sound before) (unique before ((List.prefix_append _ _).trans inside))
      (leaves before a inside)).1 after
  · intro fine before
    induction before using List.reverseRecOn with
    | nil => exact fun _ => hu
    | append_singleton before a ih =>
      intro inside
      rw [run_concat]
      exact (uniqueKeys_perform_iff (sound before) (ih ((List.prefix_append _ _).trans inside))
        (leaves before a inside)).2 (fine before a inside)

/-- A default property, and an environment that overrides it beside a property of its own. -/
def overriddenBeside : Session where
  config :=
    { default := .ofDrafts .default (.cons (.ofScalar "a" (.number (.int 1))) .nil .nil)
      environments := .ofDrafts .environments <|
        .cons { key := "prod" }
          (.cons (.ofScalar "a" (.number (.int 2))) .nil <|
            .cons (.ofScalar "b" (.number (.int 3))) .nil .nil)
          .nil }
  markers := .standard
  known := []

/-- The default property gets the name that the environment gives to its own. -/
def renameOnto : List Action :=
  [.compose ⟨.default, 1⟩ true, .commit (.scalar "b" (.number (.int 1)))]

theorem renameOnto_isLeaf : ∀ draft, .commit draft ∈ renameOnto → draft.isLeaf := by
  intro draft inside
  rcases List.mem_cons.1 inside with same | inside
  · cases same
  · cases List.mem_singleton.1 inside
    rfl

/-- The run has a clash, since it does not keep the keys distinct. -/
theorem uniqueKeys_run_iff_renameOnto :
    overriddenBeside.config.Sound ∧ overriddenBeside.config.UniqueKeys ∧
      ∃ before a, before ++ [a] <+: renameOnto ∧ (overriddenBeside.run before).Clash a := by
  have sound : overriddenBeside.config.Sound := by decide +kernel
  have unique : overriddenBeside.config.UniqueKeys := by decide +kernel
  refine ⟨sound, unique, ?_⟩
  by_contra none
  have all := (uniqueKeys_run_iff sound unique renameOnto_isLeaf).2 fun before a inside clash =>
    none ⟨before, a, inside, clash⟩
  have after := all renameOnto (List.prefix_refl _)
  revert after
  decide +kernel

/-- The default property is renamed, its override follows, and `prod` has two properties `b`. -/
theorem two_properties_of_one_key :
    overriddenBeside.config.UniqueKeys ∧ overriddenBeside.config.default.Numbered ∧
      overriddenBeside.config.environments.Numbered ∧
      (∀ draft, .commit draft ∈ renameOnto → draft.isLeaf) ∧
      ¬(overriddenBeside.run renameOnto).config.UniqueKeys :=
  ⟨by decide +kernel, by decide +kernel, by decide +kernel, renameOnto_isLeaf, by decide +kernel⟩

end Session

end LayeredConfig
