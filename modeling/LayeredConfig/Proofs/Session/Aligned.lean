import LayeredConfig.Proofs.Session.Aliases
import LayeredConfig.Proofs.Tree.LocalPaths
import LayeredConfig.Proofs.Tree.Texts

/-!
# Environments that stay aligned

A node strictly below an environment overrides the default node that its path leads to (`Aligned`:
there is one). Alignment searches the other way, from the environments along the path of a default
node, and takes the first item of every array that it meets. Where this search finds every override
of a node (`FindsAll`), the node can be deleted and can change its type, and where it finds nothing
else (`FindsOnly`), it can be renamed: the environments are aligned with the default tree as before
(`aligned_deleted`, `aligned_edited`, `Session.aligned_run`).

An item of a default array that is deleted leaves its overrides behind.
-/

namespace LayeredConfig

theorem Draft.sanitized_type {draft new : Draft} (h : draft.sanitized = .ok new) :
    new.label.type = draft.label.type := by
  unfold sanitized at h
  dsimp only at h
  split at h
  · cases h
    rfl
  · split at h
    · split at h
      · cases h
        rfl
      · cases h
    · cases h
      rfl

namespace Configuration

variable {c c' : Configuration} {n : NodeRef} {d h x above : Handle} {live : NodeData}

/-- The default node that the path of a node of the environments leads to. -/
def counterpart? (c : Configuration) (h : Handle) : Option Handle :=
  c.default.findAligned? c.default.root (c.environments.localPath h)

/-- Every node strictly below an environment has a counterpart, but for the child of an environment
that names what it inherits. -/
def Aligned (c : Configuration) : Prop :=
  ∀ e ∈ c.environments.entries, 2 ≤ c.environments.level e.handle →
    c.environments.localPath e.handle ≠ [inheritsKey] → (c.counterpart? e.handle).isSome

instance (c : Configuration) : Decidable c.Aligned :=
  inferInstanceAs (Decidable (∀ e ∈ c.environments.entries, _ → _ → _))

/-- The search for the overrides of a default node finds every node strictly below an environment of
which it is the counterpart. -/
def FindsAll (c : Configuration) (d : Handle) : Prop :=
  ∀ e ∈ c.environments.entries, 2 ≤ c.environments.level e.handle →
    c.counterpart? e.handle = some d →
      e.handle ∈ c.environments.overrides (c.default.alignedPath d)

/-- The search for the overrides of a default node finds only nodes of which it is the
counterpart. -/
def FindsOnly (c : Configuration) (d : Handle) : Prop :=
  ∀ o ∈ c.environments.overrides (c.default.alignedPath d), c.counterpart? o = some d

instance (c : Configuration) (d : Handle) : Decidable (c.FindsAll d) :=
  inferInstanceAs (Decidable (∀ e ∈ c.environments.entries, _ → _ → _))

instance (c : Configuration) (d : Handle) : Decidable (c.FindsOnly d) :=
  inferInstanceAs (Decidable (∀ o ∈ c.environments.overrides (c.default.alignedPath d), _))

theorem counterpart?_eq (c : Configuration) (h : Handle) :
    c.counterpart? h = c.default.leads (c.environments.localPath h) := c.default.findAligned?_root _

theorem aligned_iff : c.Aligned ↔ ∀ x ∈ c.environments.entries.map (·.handle),
    2 ≤ c.environments.level x → c.environments.localPath x ≠ [inheritsKey] →
      (c.default.leads (c.environments.localPath x)).isSome := by
  unfold Aligned
  simp only [counterpart?_eq, List.forall_mem_map]

/-- Alignment looks at handles, keys and types only. -/
theorem aligned_congr (default : c.default.SameWays c'.default)
    (environments : c.environments.SameWays c'.environments) : c'.Aligned ↔ c.Aligned := by
  rw [aligned_iff, aligned_iff, environments.handles]
  unfold Tree.localPath
  simp only [environments.level, environments.alignedPath, default.leads]

theorem sameWays_alignAnchor (c : Configuration) (old new : Option String) :
    c.default.SameWays (c.alignAnchor old new).default ∧
      c.environments.SameWays (c.alignAnchor old new).environments := by
  rw [alignAnchor_eq]
  exact ⟨Tree.sameWays_modifyAll (f := .following old new) (fun _ => rfl) (fun _ => rfl) _,
    Tree.sameWays_modifyAll (f := .following old new) (fun _ => rfl) (fun _ => rfl) _⟩

/-! ## Nodes whose paths avoid a default node -/

/-- The path of a node that is below no override avoids the default node. -/
theorem FindsAll.avoids (hc : c.Sound) (finds : c.FindsAll d) (below : d ≠ c.default.root)
    (there : x ∈ c.environments.entries.map (·.handle))
    (apart : ∀ o ∈ c.environments.overrides (c.default.alignedPath d), ¬c.environments.Under o x) :
    c.default.Avoids d (c.environments.localPath x) := by
  intro pre hp leads
  by_cases none : pre = []
  · rw [none, Tree.leads_nil] at leads
    exact below (Option.some.inj leads).symm
  · obtain ⟨e, he, path, under⟩ := hc.2.exists_of_isPrefix there hp none
    have level : 2 ≤ c.environments.level e.handle := by
      have length := c.environments.length_localPath e.handle
      rw [path] at length
      have := List.length_pos_of_ne_nil none
      omega
    refine apart _ (finds e he level ?_) under
    rw [counterpart?_eq, path, leads]

/-- Where overrides are taken out and paths that avoid the default node lead as before, environments
stay aligned. -/
theorem Aligned.of_left (ha : c.Aligned) (hc : c.Sound) (finds : c.FindsAll d)
    (below : d ≠ c.default.root) (keeps : Tree.KeepsOff d c.default c'.default)
    (left : ∀ x ∈ c'.environments.entries.map (·.handle),
      x ∈ c.environments.entries.map (·.handle) ∧
        c'.environments.alignedPath x = c.environments.alignedPath x ∧
        ∀ o ∈ c.environments.overrides (c.default.alignedPath d), ¬c.environments.Under o x) :
    c'.Aligned := by
  rw [aligned_iff] at ha ⊢
  intro x there level other
  obtain ⟨was, path, apart⟩ := left x there
  rw [← Tree.length_alignedPath, path, Tree.length_alignedPath] at level
  have inside : c'.environments.localPath x = c.environments.localPath x := by
    rw [Tree.localPath, path, Tree.localPath]
  rw [inside] at other ⊢
  obtain ⟨y, hy⟩ := Option.isSome_iff_exists.1 (ha x was level other)
  rw [keeps _ y (finds.avoids hc below was apart) hy]
  rfl

/-! ## Deletions -/

theorem ne_root_of_parent {t : Tree} (hp : t.parent? d = some above) : d ≠ t.root := by
  rintro rfl
  rw [t.parent?_root] at hp
  cases hp

/-- A default node that is no item of an array is deleted. -/
theorem aligned_deleted (hc : c.Sound) (ha : c.Aligned) (default : n.tree = .default)
    (finds : c.FindsAll n.handle) (data : NodeData)
    (hp : c.default.parent? n.handle = some above) (object : c.default.isArray above = false) :
    (c.deleted n c.default data above).Aligned := by
  let f := NodeData.following data.anchor none
  have shape : c.environments.SameWays (c.environments.modifyAll f) :=
    Tree.sameWays_modifyAll (f := f) (fun _ => rfl) (fun _ => rfl) _
  have deleted : c.deleted n c.default data above =
      { default := (c.default.remove n.handle).1.modifyAll f
        environments := ((c.environments.modifyAll f).removeOverrides
          (c.default.alignedPath n.handle)).1 } := by
    rw [deleted_eq]
    dsimp only
    rw [if_pos ⟨default, by rw [object]; rfl⟩, alignAnchor_eq, default]
    rfl
  rw [deleted]
  refine ha.of_left hc finds (ne_root_of_parent hp) ?_ ?_
  · refine (hc.1.keepsOff_remove hp object).trans fun path x _ hx => ?_
    have same := Tree.sameWays_modifyAll (f := f) (fun _ => rfl) (fun _ => rfl)
      (c.default.remove n.handle).1
    rw [← hx]
    exact same.leads path
  · have sound : (c.environments.modifyAll f).Sound :=
      hc.2.map (g := fun e => { e with data := f e.data }) fun _ => rfl
    intro x there
    have left := sound.left_of_prune (sound_kept.removeOverrides sound _)
      (sound.firstKeyed_removeOverrides _) there
    rw [shape.handles, shape.alignedPath, shape.overrides] at left
    exact ⟨left.1, left.2.1, fun o ho under => left.2.2 o ho ((shape.under o x).2 under)⟩

/-! ## Changes of type -/

/-- A default node gets new data, under a key that is free or its own, and is emptied or not. -/
theorem keepsOff_writeDraft {t : Tree} (ht : t.Sound) {old : NodeData} (hd : t.data? d = some old)
    {new : Draft} (leaf : new.children = .nil)
    (free : new.label.key = old.key ∨
      ∀ p, t.parent? d = some p → t.child? p new.label.key = none) :
    Tree.KeepsOff d t (writeDraft t d new) := by
  have written := ht.keepsOff_modify hd free
  rw [writeDraft_leaf leaf]
  split
  · exact written.trans (Tree.keepsOff_clear _ d)
  · exact written

/-- A draft without children is written before or after the node is emptied. -/
theorem writeDraft_clear {t : Tree} {new : Draft} (leaf : new.children = .nil) :
    writeDraft (t.clear d) d new = (writeDraft t d new).clear d := by
  rw [writeDraft_leaf leaf, writeDraft_leaf leaf, Tree.clear_modify]
  split
  · rfl
  · rfl

/-- The overrides go, and the items of an array. -/
theorem aligned_retyped (hc : c.Sound) (ha : c.Aligned) (finds : c.FindsAll d)
    (hp : c.default.parent? d = some above) (hd : c.default.data? d = some live) {new : Draft}
    (leaf : new.children = .nil)
    (free : new.label.key = live.key ∨
      ∀ p, c.default.parent? d = some p → c.default.child? p new.label.key = none) :
    ((c.alignTypeChange d).1.mapTree .default (writeDraft · d new)).Aligned := by
  refine ha.of_left hc finds (ne_root_of_parent hp) ?_ ?_
  · show Tree.KeepsOff d c.default (writeDraft (if c.default.isArray d then _ else _) d new)
    split
    · rw [writeDraft_clear leaf]
      exact (keepsOff_writeDraft hc.1 hd leaf free).trans (Tree.keepsOff_clear _ d)
    · exact keepsOff_writeDraft hc.1 hd leaf free
  · intro x there
    exact hc.2.left_of_prune (sound_kept.removeOverrides hc.2 _)
      (hc.2.firstKeyed_removeOverrides _) there

/-! ## Renamings -/

/-- The nodes of which a node is the counterpart lie one level deeper, in their environments. -/
theorem level_of_counterpart (hc : c.Sound) (below : d ≠ c.default.root)
    (hx : c.counterpart? x = some d) :
    2 ≤ c.environments.level x ∧ c.environments.level x = c.default.level d + 1 := by
  rw [counterpart?_eq] at hx
  have level := hc.1.level_of_leads hx
  have length := c.environments.length_localPath x
  have nonempty : c.environments.localPath x ≠ [] := by
    intro none
    rw [none, Tree.leads_nil] at hx
    exact below (Option.some.inj hx).symm
  have positive := List.length_pos_of_ne_nil nonempty
  omega

/-- The way to a node below an override of a child of an object: the override is a child of an
object too, under the key of the default node, and no other override is on the way. -/
theorem FindsOnly.trail (hc : c.Sound) (only : c.FindsOnly d)
    (hp : c.default.parent? d = some above) (object : c.default.isArray above = false)
    (hd : c.default.data? d = some live) (notFirst : live.key ≠ firstItemKey)
    (there : x ∈ c.environments.entries.map (·.handle)) {o : Handle}
    (ho : o ∈ c.environments.overrides (c.default.alignedPath d))
    (under : c.environments.Under o x) :
    ∃ before p e after, c.environments.trail x = before ++ p :: e :: after ∧ before ≠ [] ∧
      e.handle = o ∧ p.data.type ≠ .array ∧ e.data.key = live.key ∧
      c.default.leads (c.environments.localPath p.handle ++ [live.key]) = some d ∧
      ∀ a, a ∈ before ++ [p] ∨ a ∈ after →
        a.handle ∉ c.environments.overrides (c.default.alignedPath d) := by
  have below := ne_root_of_parent hp
  obtain ⟨e, he, rfl⟩ := List.mem_map.1 under
  obtain ⟨init, after, hw⟩ := List.append_of_mem he
  have level := hc.2.level_of_append there hw
  have deep := level_of_counterpart hc below (only _ ho)
  -- above the override there are its environment and the root at least
  obtain ⟨init, p, rfl⟩ : ∃ before p, init = before ++ [p] := by
    refine ⟨init.dropLast, init.getLast ?_, (List.dropLast_append_getLast _).symm⟩
    rintro rfl
    rw [List.length_nil] at level
    omega
  have nonempty : init ≠ [] := by
    rintro rfl
    rw [List.nil_append, List.length_singleton] at level
    omega
  have hw' : c.environments.trail x = init ++ p :: (e :: after) := by rw [hw]; simp
  obtain ⟨inside, trail⟩ := hc.2.trail_of_append there hw
  have trail' : c.environments.trail e.handle = init ++ p :: [e] := by rw [trail]; simp
  have path := hc.2.alignedPath_of_append (List.mem_map_of_mem inside) trail'
  have parentLevel := hc.2.level_of_append there hw'
  have first : c.environments.alignedPath p.handle ≠ [] := by
    rw [← List.length_pos_iff, Tree.length_alignedPath, parentLevel]
    exact List.length_pos_of_ne_nil nonempty
  have localPath : c.environments.localPath e.handle =
      c.environments.localPath p.handle ++ [Tree.alignedKey p e] := by
    rw [Tree.localPath, path, List.tail_append_of_ne_nil first]
    rfl
  have leads := only _ ho
  rw [counterpart?_eq, localPath] at leads
  have key := hc.1.key_of_leads hp object hd leads
  have array : p.data.type ≠ .array := by
    intro array
    rw [Tree.alignedKey, if_pos array] at key
    exact notFirst key.symm
  refine ⟨init, p, e, after, hw', nonempty, rfl, array, ?_, key ▸ leads, fun a ha ho' => ?_⟩
  · rwa [Tree.alignedKey, if_neg array] at key
  · have deep' := level_of_counterpart hc below (only _ ho')
    exact hc.2.level_ne_of_append there hw ha (deep'.2.trans deep.2.symm)

/-- A child of an object is renamed, and its overrides with it. -/
theorem aligned_renamed (hc : c.Sound) (ha : c.Aligned) (all : c.FindsAll d) (only : c.FindsOnly d)
    (hp : c.default.parent? d = some above) (object : c.default.isArray above = false)
    (hd : c.default.data? d = some live) (notFirst : live.key ≠ firstItemKey) {new : NodeData}
    (type : new.type = live.type) (free : c.default.child? above new.key = none) :
    Aligned
      { default := c.default.modify d fun _ => new
        environments := { c.environments with
          top := c.environments.top.map
            (Tree.keyedAs (c.environments.overrides (c.default.alignedPath d)) new.key) } } := by
  have below := ne_root_of_parent hp
  rw [aligned_iff] at ha ⊢
  dsimp only
  rw [Tree.handles_map (Tree.handle_keyedAs _ _)]
  intro x there level other
  rw [Tree.level_map (Tree.handle_keyedAs _ _)] at level
  by_cases passes : ∃ o ∈ c.environments.overrides (c.default.alignedPath d),
      c.environments.Under o x
  · obtain ⟨o, ho, under⟩ := passes
    obtain ⟨before, p, e, after, hw, nonempty, rfl, array, key, leads, others⟩ :=
      only.trail hc hp object hd notFirst there ho under
    have first : c.environments.alignedPath p.handle ≠ [] := by
      rw [← List.length_pos_iff, Tree.length_alignedPath, hc.2.level_of_append there hw]
      exact List.length_pos_of_ne_nil nonempty
    obtain ⟨path, renamed⟩ := hc.2.alignedPath_renamed new.key there hw array ho
      (fun a ha => others a (Or.inl ha)) fun a ha => others a (Or.inr ha)
    unfold Tree.localPath at other leads ⊢
    rw [renamed, List.tail_append_of_ne_nil first]
    rw [hc.1.leads_renamed hp object hd type free leads]
    have was : c.environments.localPath x = (c.environments.alignedPath p.handle).tail ++ live.key ::
        List.zipWith Tree.alignedKey (e :: after) after := by
      rw [Tree.localPath, path, List.tail_append_of_ne_nil first, key]
    by_cases exempt : c.environments.localPath x = [inheritsKey]
    · -- a path of one key ends with the override, so it leads to the node that is renamed
      have length := congrArg List.length (was.symm.trans exempt)
      rw [List.length_append, List.length_cons, List.length_singleton] at length
      have last : List.zipWith Tree.alignedKey (e :: after) after = [] :=
        List.length_eq_zero_iff.1 (by omega)
      rw [last, leads]
      rfl
    · rw [← was]
      exact ha x there level exempt
  · have apart : ∀ o ∈ c.environments.overrides (c.default.alignedPath d),
        ¬c.environments.Under o x := fun o ho under => passes ⟨o, ho, under⟩
    have path : ∀ key, ({ c.environments with
        top := c.environments.top.map
          (Tree.keyedAs (c.environments.overrides (c.default.alignedPath d)) key) } :
            Tree).localPath x = c.environments.localPath x := fun key => by
      rw [Tree.localPath, Tree.alignedPath_of_kept apart, Tree.localPath]
    rw [path] at other ⊢
    obtain ⟨y, hy⟩ := Option.isSome_iff_exists.1 (ha x there level other)
    have free' : ∀ q, c.default.parent? d = some q → c.default.child? q new.key = none := by
      intro q hq
      cases hp.symm.trans hq
      exact free
    rw [hc.1.keepsOff_modify hd (Or.inr free') _ y (all.avoids hc below there apart) hy]
    rfl

/-! ## Edits -/

theorem writeDraft_of_childless {t : Tree} (ht : t.Sound) {new : Draft} (leaf : new.children = .nil)
    (childless : new.label.type.isScalar → t.isLeaf d) :
    writeDraft t d new = t.modify d fun _ => new.label := by
  rw [writeDraft_leaf leaf]
  split
  · rename_i scalar
    rw [← Tree.clear_modify, ht.clear_of_isLeaf (childless scalar)]
  · rfl

theorem sameWays_writeDraft {t u : Tree} (same : t.SameWays u) (d : Handle) {new : Draft}
    (leaf : new.children = .nil) : (writeDraft t d new).SameWays (writeDraft u d new) := by
  rw [writeDraft_leaf leaf, writeDraft_leaf leaf]
  split
  · exact (same.modify d new.label).clear d
  · exact same.modify d new.label

/-- New data under the same key and of the same type. -/
theorem sameWays_written {t : Tree} (ht : t.Sound) (hd : t.data? d = some live) {new : NodeData}
    (key : new.key = live.key) (type : new.type = live.type) :
    t.SameWays (t.modify d fun _ => new) := by
  have same : t.modify d (fun _ => new) =
      t.modify d fun d => { new with key := d.key, type := d.type } := by
    refine ht.modify_congr fun d' hd' => ?_
    cases hd.symm.trans hd'
    rw [← key, ← type]
  rw [same]
  exact Tree.sameWays_modify (f := fun d => { new with key := d.key, type := d.type })
    (fun _ => rfl) (fun _ => rfl) t d

theorem admittedEdit_kept {t : Tree} {draft new : Draft}
    (ha : admittedEdit t n live draft = .ok new) :
    (t.parent? n.handle = none → new.label.type = live.type) ∧
      (t.isItem n.handle → new.label.key = live.key) := by
  unfold admittedEdit at ha
  dsimp only at ha
  cases hp : t.parent? n.handle with
  | none =>
    rw [hp] at ha
    have type := Draft.sanitized_type ha
    have key := Draft.sanitized_key ha
    simp only [Option.isNone_none, true_or, if_true] at type key
    exact ⟨fun _ => type, fun _ => key⟩
  | some p =>
    rw [hp] at ha
    obtain ⟨-, ha⟩ := Outcome.check_eq_ok.1 ha
    have key := Draft.sanitized_key ha
    refine ⟨fun root => (by cases root), fun item => ?_⟩
    rw [key]
    exact if_pos (Or.inr item)

/-- The environments can follow a default node that gets new data: where its type or key changes the
search finds its overrides, and where it is renamed nothing else. A scalar has no children to
lose. -/
structure Followed (c : Configuration) (d : Handle) (live new : NodeData) : Prop where
  all : live.type ≠ new.type ∨ live.key ≠ new.key → c.FindsAll d
  only : live.type = new.type → live.key ≠ new.key →
    c.FindsOnly d ∧ live.key ≠ firstItemKey
  childless : live.type = new.type → new.type.isScalar → c.default.isLeaf d

theorem default_alignKeyRename_sameWays (c : Configuration) (d : Handle) (key : String)
    (m : Markers) : c.default.SameWays (c.alignKeyRename d key m).1.default := by
  unfold alignKeyRename
  split
  · exact .refl _
  · exact c.default.sameWays_renameReferences _ _ _ _

/-- The overrides are renamed, and references in other nodes turned. -/
theorem environments_alignKeyRename_sameWays (hd : c.default.data? d = some live) (key : String)
    (m : Markers) :
    ({ c.environments with
      top := c.environments.top.map
        (Tree.keyedAs (c.environments.overrides (c.default.alignedPath d)) key) } : Tree).SameWays
      (c.alignKeyRename d key m).1.environments := by
  unfold alignKeyRename
  rw [Tree.key?, hd, Option.map_some]
  refine Tree.SameWays.trans (Eq.symm ?_) (Tree.sameWays_renameReferences _ _ _ _ _)
  unfold Tree.alignOverrides
  dsimp only
  rw [Tree.foldl_modify (f := fun d => { d with key }) (Or.inr fun _ => rfl)]
  rfl

/-- A default node is edited. -/
theorem aligned_edited (hc : c.Sound) (ha : c.Aligned) (default : n.tree = .default)
    (hd : c.default.data? n.handle = some live) {draft new : Draft}
    (admitted : admittedEdit c.default n live draft = .ok new) (leaf : new.children = .nil)
    (m : Markers) (followed : c.Followed n.handle live new.label) :
    (c.edited n live new m).Aligned := by
  obtain ⟨d, rfl⟩ : ∃ d, n = ⟨.default, d⟩ := ⟨n.handle, by rw [← default]⟩
  obtain ⟨-, rootKey, free⟩ := admittedEdit_ok admitted
  obtain ⟨rootType, itemKey⟩ := admittedEdit_kept admitted
  obtain ⟨anchors, anchors'⟩ := sameWays_alignAnchor
    ((c.alignEdit ⟨.default, d⟩ live new.label m).mapTree .default (writeDraft · d new)) live.anchor
    new.label.anchor
  refine (aligned_congr anchors anchors').2 ?_
  -- nothing that alignment looks at changes
  have same : live.type = new.label.type → live.key = new.label.key →
      (c.mapTree .default (writeDraft · d new)).Aligned := by
    intro type key
    have kept : c.default.SameWays (c.mapTree .default (writeDraft · d new)).default := by
      show c.default.SameWays (writeDraft c.default d new)
      rw [writeDraft_of_childless hc.1 leaf (followed.childless type)]
      exact sameWays_written hc.1 hd key.symm type.symm
    exact (aligned_congr kept (.refl _)).2 ha
  unfold alignEdit
  cases hp : c.default.parent? d with
  | none =>
    rw [if_neg (by simp)]
    exact same (rootType hp).symm (rootKey hp).symm
  | some above =>
    rw [if_pos ⟨rfl, rfl⟩]
    by_cases type : live.type = new.label.type
    · rw [if_neg (not_not.2 type)]
      by_cases key : live.key = new.label.key
      · rw [if_neg (not_not.2 key)]
        exact same type key
      · rw [if_pos key]
        obtain ⟨only, notFirst⟩ := followed.only type key
        have object : c.default.isArray above = false := by
          rw [← Bool.not_eq_true]
          intro array
          refine key (itemKey ?_).symm
          rw [Tree.isItem, hp]
          exact array
        have unused := (free.resolve_left (Ne.symm key)) above hp
        have renamed := aligned_renamed hc ha (followed.all (Or.inr key)) only hp object hd notFirst
          type.symm unused
        refine (aligned_congr ?_ (environments_alignKeyRename_sameWays hd _ m)).2 renamed
        rw [← writeDraft_of_childless hc.1 leaf (followed.childless type)]
        exact sameWays_writeDraft (default_alignKeyRename_sameWays _ d _ m) d leaf
    · rw [if_pos type]
      exact aligned_retyped hc ha (followed.all (Or.inl type)) hp hd leaf free

end Configuration

/-! ## Steps and runs -/

namespace Draft

/-- A number below a key. -/
def number (key : String) (value : Int) : Draft := .scalar key (.number (.int value))

/-- An object with these properties. -/
def object (key : String) (properties : List Draft) : Draft := ⟨{ key }, .ofRoots properties⟩

/-- An array of these items. -/
def array (key : String) (items : List Draft) : Draft :=
  ⟨{ key, type := .array }, numberItems (.ofRoots items)⟩

end Draft

namespace Session

variable {s : Session} {a : Action}

/-- A step that leaves the configuration as it is, or a change of a default node that the
environments can follow: an edit, or the deletion of a node that is no item of an array. -/
inductive Follows (s : Session) : Action → Prop
  | nothing {a : Action} (h : (s.perform a).config = s.config) : Follows s a
  | edited {draft : Draft} {n : NodeRef} {live : NodeData} {new : Draft}
    (h : s.Edits draft n s.config.default live new) (default : n.tree = .default)
    (leaf : draft.isLeaf) (followed : s.config.Followed n.handle live new.label) :
    Follows s (.commit draft)
  | deleted {a : Action} {n : NodeRef} {data : NodeData} {above : Handle}
    (h : s.Deletes n s.config.default data above) (ha : a = .delete n .yes ∨ a = .doDelete n)
    (default : n.tree = .default) (object : s.config.default.isArray above = false)
    (finds : s.config.FindsAll n.handle) : Follows s a

/-- **One step.** -/
theorem aligned_perform (hs : s.config.Sound) (aligned : s.config.Aligned) (h : s.Follows a) :
    (s.perform a).config.Aligned := by
  cases h with
  | nothing same =>
    rw [same]
    exact aligned
  | edited h default leaf followed =>
    rw [h.config_perform]
    exact Configuration.aligned_edited hs aligned default h.known h.admitted
      ((Configuration.admittedEdit_ok h.admitted).1 leaf) _ followed
  | deleted h ha default object finds =>
    rw [h.config_perform ha]
    exact Configuration.aligned_deleted hs aligned default finds _ h.parent object

/-- **Aligned environments over a run.** Environments that are aligned with the default tree are
aligned with it after a run of edits and deletions of default nodes that they can follow. -/
theorem aligned_run (hs : s.config.Sound) (aligned : s.config.Aligned) {actions : List Action}
    (follows : ∀ before a, before ++ [a] <+: actions → (s.run before).Follows a) :
    (s.run actions).config.Aligned := by
  induction actions using List.reverseRecOn with
  | nil => exact aligned
  | append_singleton before a ih =>
    have sound : (s.run before).config.Sound :=
      run_induction (P := fun s => s.config.Sound) hs fun _ a _ h => sound_perform h a
    rw [run_concat]
    refine aligned_perform sound (ih fun earlier b inside => ?_) (follows before a (List.prefix_refl _))
    exact follows earlier b (inside.trans (List.prefix_append _ _))

/-- A session with a default tree and one environment. -/
def overriding (default prod : List Draft) : Session where
  config :=
    { default := .ofDrafts .default (.ofRoots default)
      environments := .ofDrafts .environments (.ofRoots [Draft.object "prod" prod]) }
  markers := .standard
  known := []

/-- Two properties of the default tree that an environment overrides, the second in an object. -/
def overriddenTwice : Session :=
  overriding
    [.number "a" 1, .object "b" [.number "c" 2]]
    [.scalar "inherits" (.string "base"), .number "a" 3, .object "b" [.number "c" 4]]

/-- The first property is renamed, and the second deleted. -/
def renameThenDelete : List Action :=
  [.compose ⟨.default, 1⟩ true, .commit (.number "d" 1), .doDelete ⟨.default, 3⟩]

theorem aligned_run_renameThenDelete :
    overriddenTwice.config.Sound ∧ overriddenTwice.config.Aligned ∧
      (overriddenTwice.run renameThenDelete).config.Aligned := by
  have sound : overriddenTwice.config.Sound := by decide +kernel
  have start : overriddenTwice.config.Aligned := by decide +kernel
  refine ⟨sound, start, aligned_run sound start fun before a inside => ?_⟩
  rcases before with _ | ⟨x, _ | ⟨y, _ | ⟨z, rest⟩⟩⟩
  · obtain rfl : a = .compose ⟨.default, 1⟩ true := by simpa [renameThenDelete] using inside
    exact .nothing rfl
  · obtain ⟨rfl, rfl⟩ : x = .compose ⟨.default, 1⟩ true ∧
        a = .commit (.number "d" 1) := by simpa [renameThenDelete] using inside
    refine .edited (n := ⟨.default, 1⟩) ⟨⟨_, rfl, rfl, rfl⟩, rfl, rfl, rfl⟩ rfl rfl ⟨?_, ?_, ?_⟩
    · decide +kernel
    · decide +kernel
    · decide +kernel
  · obtain ⟨rfl, rfl, rfl⟩ : x = .compose ⟨.default, 1⟩ true ∧
        y = .commit (.number "d" 1) ∧ a = .doDelete ⟨.default, 3⟩ := by
      simpa [renameThenDelete] using inside
    refine .deleted (n := ⟨.default, 3⟩) ⟨rfl, rfl, rfl⟩ (Or.inr rfl) rfl ?_ ?_
    · decide +kernel
    · decide +kernel
  · simp [renameThenDelete] at inside

/-- A run that leaves a node of the environments without the counterpart that it had. -/
def Strands (s : Session) (actions : List Action) : Prop :=
  s.config.UniqueKeys ∧ s.config.Aligned ∧ ¬(s.run actions).config.Aligned

instance (s : Session) (actions : List Action) : Decidable (s.Strands actions) :=
  inferInstanceAs (Decidable (_ ∧ _ ∧ ¬_))

/-- An item is deleted; a property of the first item is, which two items of the environment
override; a property of the second item is renamed, and the override of the first one with it; a
property named `[0]` is, which the environment overrides by an item; a scalar loses its children. -/
theorem nodes_without_counterpart :
    (overriding [.array "list" [.number "" 1]] [.array "list" [.number "" 2]]).Strands
        [.doDelete ⟨.default, 2⟩] ∧
      (overriding [.array "list" [.object "" [.number "x" 1]]]
          [.array "list" [.object "" [.number "x" 2], .object "" [.number "x" 3]]]).Strands
        [.doDelete ⟨.default, 3⟩] ∧
      (overriding [.array "list" [.object "" [.number "x" 1], .object "" [.number "x" 2]]]
          [.array "list" [.object "" [.number "x" 3]]]).Strands
        [.compose ⟨.default, 5⟩ true, .commit (.number "y" 2)] ∧
      (overriding [.object "o" [.number "[0]" 1]] [.array "o" [.number "" 2]]).Strands
        [.compose ⟨.default, 2⟩ true, .commit (.number "p" 1)] ∧
      (overriding [⟨.ofScalar "a" (.number (.int 1)), .ofRoots [Draft.number "b" 2]⟩]
          [.object "a" [.number "b" 3]]).Strands
        [.compose ⟨.default, 1⟩ true, .commit (.number "a" 4)] := by
  refine ⟨?_, ?_, ?_, ?_, ?_⟩ <;> decide +kernel

end Session

end LayeredConfig
