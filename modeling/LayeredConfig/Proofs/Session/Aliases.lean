import LayeredConfig.Proofs.Session.UniqueKeys
import LayeredConfig.Proofs.Tree.Trails

/-!
# Aliases over a run of a session

A session follows the anchor of the node that is edited or deleted: its aliases get the new name or
go. It does not look at the anchors of the nodes that vanish with it, those below the node and the
overrides. So a step leaves an alias without an anchor iff it takes away every declaration of an
anchor, not the node's own, that a node which is left repeats (`Orphans`,
`noDangling_perform_iff`, `noDangling_run_iff`). Where no such node declares an anchor, every alias
keeps one (`Orphans.exists_drops`).
-/

namespace LayeredConfig

/-- The anchor that a node declares, and those that it repeats. -/
def NodeData.names (d : NodeData) : Option String × List String := (d.anchor, d.aliases)

theorem names_first (items : Bool) (e : Entry) : (Entry.first items e).data.names = e.data.names := by
  cases items <;> rfl

/-- Aliases after an anchor was renamed or removed. -/
def followAnchor : Option String → Option String → List String → List String
  | some old, some new, aliases =>
    if old ≠ new ∧ old ∈ aliases then renameInList old new aliases else aliases
  | some old, none, aliases => aliases.filter (· ≠ old)
  | none, _, aliases => aliases

/-- Data whose aliases follow an anchor. -/
def NodeData.following (old new : Option String) (d : NodeData) : NodeData :=
  { d with aliases := followAnchor old new d.aliases }

/-- An alias that follows an anchor is the new name of that anchor or one of another. -/
theorem mem_followAnchor {old new : Option String} {aliases : List String} {name : String}
    (h : name ∈ followAnchor old new aliases) :
    new = some name ∨ name ∈ aliases ∧ old ≠ some name := by
  cases old with
  | none => exact Or.inr ⟨h, by simp⟩
  | some old =>
    cases new with
    | none =>
      obtain ⟨inside, other⟩ := List.mem_filter.1 h
      exact Or.inr ⟨inside, fun same => by simp [Option.some.inj same] at other⟩
    | some new =>
      rw [followAnchor] at h
      split at h
      · rw [renameInList] at h
        split at h
        · obtain ⟨inside, other⟩ := List.mem_filter.1 h
          exact Or.inr ⟨inside, fun same => by simp [Option.some.inj same] at other⟩
        · obtain ⟨a, ha, rfl⟩ := List.mem_map.1 h
          by_cases same : a = old
          · exact Or.inl (by rw [if_pos same])
          · rw [if_neg same]
            exact Or.inr ⟨ha, fun h => same (Option.some.inj h).symm⟩
      · rename_i kept
        by_cases same : old = name
        · subst same
          by_cases unchanged : old = new
          · exact Or.inl (unchanged ▸ rfl)
          · exact absurd ⟨unchanged, h⟩ kept
        · exact Or.inr ⟨h, fun h => same (Option.some.inj h)⟩

/-- An alias of another anchor stays. -/
theorem mem_followAnchor_of_ne {old new : Option String} {aliases : List String} {name : String}
    (inside : name ∈ aliases) (other : old ≠ some name) : name ∈ followAnchor old new aliases := by
  cases old with
  | none => exact inside
  | some old =>
    have differs : name ≠ old := fun same => other (same ▸ rfl)
    have kept : name ∈ aliases.filter (· ≠ old) := List.mem_filter.2 ⟨inside, by simpa using differs⟩
    cases new with
    | none => exact kept
    | some new =>
      rw [followAnchor]
      split
      · rw [renameInList]
        split
        · exact kept
        · exact List.mem_map.2 ⟨name, inside, if_neg differs⟩
      · exact inside

namespace Configuration

/-! ## Anchors declared -/

/-- A node of either tree declares the anchor. -/
def Declares (c : Configuration) (name : String) : Prop :=
  ∃ x ∈ c.refs, (c.data? x).bind (·.anchor) = some name

/-- Every alias of a node names an anchor that a node declares. -/
def NoDangling (c : Configuration) : Prop :=
  ∀ x ∈ c.refs, ∀ d ∈ c.data? x, ∀ name ∈ d.aliases, c.Declares name

instance (c : Configuration) (name : String) : Decidable (c.Declares name) :=
  inferInstanceAs (Decidable (∃ x ∈ c.refs, (c.data? x).bind (·.anchor) = some name))

instance (c : Configuration) : Decidable c.NoDangling :=
  inferInstanceAs (Decidable (∀ x ∈ c.refs, ∀ d ∈ c.data? x, ∀ name ∈ d.aliases, c.Declares name))

variable {c c' : Configuration} {n x : NodeRef} {t : Tree} {name : String} {live : NodeData}
  {old new : Option String}

theorem mem_refs_of_data? {d : NodeData} (hd : c.data? x = some d) : x ∈ c.refs := by
  obtain ⟨t, ht, hd⟩ := Option.bind_eq_some_iff.1 hd
  obtain ⟨r, hr, -⟩ := Option.map_eq_some_iff.1 hd
  have inside : x.handle ∈ t.entries.map (·.handle) := by
    rw [← Tree.find?_handle hr]
    exact List.mem_map_of_mem (Tree.mem_entries_iff.2
      (Forest.mem_preorder_of_mem_subtrees (Tree.find?_mem hr) List.mem_cons_self))
  obtain ⟨e, he, same⟩ := List.mem_map.1 inside
  obtain ⟨kind, h⟩ := x
  subst same
  cases kind with
  | default =>
    cases ht
    exact List.mem_append_left _ (List.mem_map_of_mem he)
  | environments =>
    cases ht
    exact List.mem_append_right _ (List.mem_map_of_mem he)
  | detached => cases ht

theorem declares_iff :
    c.Declares name ↔ ∃ x aliases, (c.data? x).map NodeData.names = some (some name, aliases) := by
  constructor
  · rintro ⟨x, -, found⟩
    obtain ⟨d, hd, anchor⟩ := Option.bind_eq_some_iff.1 found
    exact ⟨x, d.aliases, by rw [hd, Option.map_some, NodeData.names, anchor]⟩
  · rintro ⟨x, aliases, found⟩
    obtain ⟨d, hd, same⟩ := Option.map_eq_some_iff.1 found
    refine ⟨x, mem_refs_of_data? hd, ?_⟩
    rw [hd, Option.bind_some]
    exact congrArg Prod.fst same

theorem noDangling_iff :
    c.NoDangling ↔ ∀ x anchor aliases, (c.data? x).map NodeData.names = some (anchor, aliases) →
      ∀ name ∈ aliases, c.Declares name := by
  constructor
  · intro all x anchor aliases found name inside
    obtain ⟨d, hd, same⟩ := Option.map_eq_some_iff.1 found
    cases same
    exact all x (mem_refs_of_data? hd) d hd name inside
  · intro all x _ d hd name inside
    refine all x d.anchor d.aliases ?_ name inside
    rw [Option.mem_def.1 hd, Option.map_some, NodeData.names]

/-! ## What is left -/

/-- An anchor other than `own` that one of the nodes that are left repeats and none of them
declares. -/
def Orphaned (left : NodeRef → NodeData → Prop) (own : Option String) : Prop :=
  ∃ name, own ≠ some name ∧ (∃ x d, left x d ∧ name ∈ d.aliases) ∧
    ∀ x d, left x d → d.anchor ≠ some name

/-- Where nodes are left, their aliases following an anchor, no alias dangles iff none of another
anchor is orphaned. -/
theorem noDangling_iff_of_left {left : NodeRef → NodeData → Prop}
    (names : ∀ x m, (c'.data? x).map NodeData.names = some m ↔
      ∃ d, left x d ∧ m = (d.anchor, followAnchor old new d.aliases))
    (declared : ∀ name, new = some name → ∃ x d, left x d ∧ d.anchor = some name) :
    c'.NoDangling ↔ ¬Orphaned left old := by
  have declares : ∀ name, c'.Declares name ↔ ∃ x d, left x d ∧ d.anchor = some name := by
    intro name
    rw [declares_iff]
    constructor
    · rintro ⟨x, aliases, found⟩
      obtain ⟨d, hd, same⟩ := (names x _).1 found
      exact ⟨x, d, hd, (congrArg Prod.fst same).symm⟩
    · rintro ⟨x, d, hd, anchor⟩
      exact ⟨x, _, (names x _).2 ⟨d, hd, by rw [anchor]⟩⟩
  rw [noDangling_iff]
  constructor
  · rintro all ⟨name, other, ⟨x, d, hd, inside⟩, none⟩
    have kept := all x _ _ ((names x _).2 ⟨d, hd, rfl⟩) name (mem_followAnchor_of_ne inside other)
    obtain ⟨y, d', hd', anchor⟩ := (declares name).1 kept
    exact none y d' hd' anchor
  · intro fine x anchor aliases found name inside
    obtain ⟨d, hd, same⟩ := (names x _).1 found
    obtain ⟨rfl, rfl⟩ := Prod.mk.inj same
    rw [declares]
    rcases mem_followAnchor inside with follows | ⟨inside, other⟩
    · exact declared name follows
    · by_contra none
      exact fine ⟨name, other, ⟨x, d, hd, inside⟩, fun y d' hd' anchor => none ⟨y, d', hd', anchor⟩⟩

/-! ## Aliases that follow -/

theorem alignAnchor_eq (c : Configuration) (old new : Option String) :
    c.alignAnchor old new =
      { default := c.default.modifyAll (.following old new)
        environments := c.environments.modifyAll (.following old new) } := by
  have kept : ∀ t : Tree, t.modifyAll id = t := by
    intro t
    unfold Tree.modifyAll
    rw [show (fun e : Entry => ({ e with data := id e.data } : Entry)) = id from rfl, Rose.map_id]
  cases old with
  | none =>
    have same : NodeData.following none new = id := rfl
    rw [same, kept, kept]
    rfl
  | some old =>
    cases new with
    | none => rfl
    | some new =>
      unfold alignAnchor
      dsimp only
      by_cases changed : old = new
      · have same : NodeData.following (some old) (some new) = id := by
          funext d
          simp [NodeData.following, followAnchor, changed]
        rw [if_neg (not_not.2 changed), same, kept, kept]
      · have same : NodeData.following (some old) (some new) = fun d =>
            if d.aliases.contains old then { d with aliases := renameInList old new d.aliases }
            else d := by
          funext d
          by_cases inside : old ∈ d.aliases
          · simp [NodeData.following, followAnchor, changed, inside]
          · simp [NodeData.following, followAnchor, inside]
        rw [if_pos changed, same]
        rfl

theorem data?_alignAnchor (c : Configuration) (old new : Option String) (x : NodeRef) :
    (c.alignAnchor old new).data? x = (c.data? x).map (.following old new) := by
  rw [alignAnchor_eq]
  obtain ⟨kind, h⟩ := x
  cases kind with
  | default => exact Tree.data?_modifyAll _ _ _
  | environments => exact Tree.data?_modifyAll _ _ _
  | detached => rfl

theorem data?_mapTree (ht : c.tree? n.tree = some t) (f : Tree → Tree) (x : NodeRef) :
    (c.mapTree n.tree f).data? x =
      if x.tree = n.tree then (f t).data? x.handle else c.data? x := by
  obtain ⟨kind, h⟩ := n
  obtain ⟨kind', h'⟩ := x
  cases kind with
  | default =>
    cases ht
    cases kind' <;> rfl
  | environments =>
    cases ht
    cases kind' <;> rfl
  | detached => cases ht

/-! ## Nodes that vanish -/

/-- The nodes that vanish when a node is deleted: the node and what is below it and, where its parent
is no array, the overrides of a default node. -/
def VanishesInDeletion (c : Configuration) (n : NodeRef) (t : Tree) (above : Handle) (x : NodeRef) :
    Prop :=
  x.tree = n.tree ∧ t.Under n.handle x.handle ∨
    (n.tree = .default ∧ !t.isArray above) ∧ x.tree = .environments ∧
      ∃ o ∈ c.environments.overrides (t.alignedPath n.handle), c.environments.Under o x.handle

/-- A node that a deletion leaves. -/
def LeftByDeletion (c : Configuration) (n : NodeRef) (t : Tree) (above : Handle) (x : NodeRef)
    (d : NodeData) : Prop :=
  c.data? x = some d ∧ ¬c.VanishesInDeletion n t above x

theorem deleted_eq (c : Configuration) (n : NodeRef) (t : Tree) (data : NodeData) (above : Handle) :
    c.deleted n t data above =
      let followed := (c.mapTree n.tree fun t => (t.remove n.handle).1).alignAnchor data.anchor none
      if n.tree = .default ∧ !t.isArray above then
        (followed.alignDeletion (t.alignedPath n.handle)).1
      else followed := by
  unfold deleted
  cases data.anchor <;> rfl

/-- What removing the overrides of a path leaves. -/
theorem names_alignDeletion (he : c.environments.Sound) (path : List String) (x : NodeRef)
    (m : Option String × List String) :
    ((c.alignDeletion path).1.data? x).map NodeData.names = some m ↔
      (c.data? x).map NodeData.names = some m ∧
        ¬(x.tree = .environments ∧
          ∃ o ∈ c.environments.overrides path, c.environments.Under o x.handle) := by
  obtain ⟨kind, h⟩ := x
  cases kind with
  | default => exact (and_iff_left (by simp)).symm
  | detached => exact (and_iff_left (by simp)).symm
  | environments =>
    have left := he.map_data?_of_prune (sound_kept.removeOverrides he path)
      (he.firstKeyed_removeOverrides path) names_first (x := h) (m := m)
    simp only [true_and]
    exact left

theorem names_following (d : NodeData) :
    (d.following old new).names = (d.names.1, followAnchor old new d.names.2) := rfl

theorem names_removed (hc : c.Sound) (ht : c.tree? n.tree = some t) (below : n.handle ≠ t.root)
    (x : NodeRef) (m : Option String × List String) :
    ((c.mapTree n.tree fun t => (t.remove n.handle).1).data? x).map NodeData.names = some m ↔
      (c.data? x).map NodeData.names = some m ∧
        ¬(x.tree = n.tree ∧ t.Under n.handle x.handle) := by
  rw [data?_mapTree ht]
  by_cases here : x.tree = n.tree
  · rw [if_pos here, (hc.tree ht).map_data?_remove below names_first,
      data?_of_tree? (here ▸ ht : c.tree? x.tree = some t)]
    simp [here]
  · rw [if_neg here]
    simp [here]

/-- **What a deletion leaves.** The nodes that do not vanish, their aliases without that of the
deleted node's anchor. -/
theorem names_deleted (hc : c.Sound) (ht : c.tree? n.tree = some t) {data : NodeData}
    {above : Handle} (hp : t.parent? n.handle = some above) (x : NodeRef)
    (m : Option String × List String) :
    ((c.deleted n t data above).data? x).map NodeData.names = some m ↔
      ∃ d, c.LeftByDeletion n t above x d ∧ m = (d.anchor, followAnchor data.anchor none d.aliases) := by
  have below : n.handle ≠ t.root := by
    intro same
    rw [same, t.parent?_root] at hp
    cases hp
  have followed : ∀ x m, (((c.mapTree n.tree fun t => (t.remove n.handle).1).alignAnchor data.anchor
      none).data? x).map NodeData.names = some m ↔
        ∃ d, (c.data? x = some d ∧ ¬(x.tree = n.tree ∧ t.Under n.handle x.handle)) ∧
          m = (d.anchor, followAnchor data.anchor none d.aliases) := by
    intro x m
    rw [data?_alignAnchor, Option.map_map]
    constructor
    · intro found
      obtain ⟨d', hd', rfl⟩ := Option.map_eq_some_iff.1 found
      obtain ⟨known, kept⟩ := (names_removed hc ht below x d'.names).1 (by rw [hd', Option.map_some])
      obtain ⟨d, hd, same⟩ := Option.map_eq_some_iff.1 known
      refine ⟨d, ⟨hd, kept⟩, ?_⟩
      rw [Function.comp_apply, names_following, ← same]
      rfl
    · rintro ⟨d, ⟨hd, kept⟩, rfl⟩
      have known := (names_removed hc ht below x d.names).2 ⟨by rw [hd, Option.map_some], kept⟩
      obtain ⟨d', hd', same⟩ := Option.map_eq_some_iff.1 known
      rw [hd', Option.map_some, Function.comp_apply, names_following, same]
      rfl
  rw [deleted_eq]
  unfold LeftByDeletion VanishesInDeletion
  dsimp only
  by_cases aligned : n.tree = .default ∧ !t.isArray above
  · -- the environments that are searched for overrides differ from those of `c` in their aliases
    have environments : ((c.mapTree n.tree fun t => (t.remove n.handle).1).alignAnchor data.anchor
        none).environments = c.environments.modifyAll (.following data.anchor none) := by
      rw [alignAnchor_eq, aligned.1]
      rfl
    have sound : (c.environments.modifyAll (.following data.anchor none)).Sound :=
      hc.2.map (g := fun e => { e with data := e.data.following data.anchor none }) fun _ => rfl
    have overrides : (c.environments.modifyAll (.following data.anchor none)).overrides
        (t.alignedPath n.handle) = c.environments.overrides (t.alignedPath n.handle) :=
      Tree.overrides_map (g := fun e => { e with data := e.data.following data.anchor none })
        (fun _ => rfl) (fun _ => rfl) (fun _ => rfl) _ _
    have under : ∀ o h, (c.environments.modifyAll (.following data.anchor none)).Under o h ↔
        c.environments.Under o h := fun o h =>
      Tree.under_map (g := fun e => { e with data := e.data.following data.anchor none })
        (fun _ => rfl) _ o h
    rw [if_pos aligned, names_alignDeletion (environments ▸ sound), followed, environments, overrides]
    simp only [under, not_or]
    constructor
    · rintro ⟨⟨d, ⟨hd, kept⟩, rfl⟩, others⟩
      exact ⟨d, ⟨hd, kept, fun h => others h.2⟩, rfl⟩
    · rintro ⟨d, ⟨hd, kept, others⟩, rfl⟩
      exact ⟨⟨d, ⟨hd, kept⟩, rfl⟩, fun h => others ⟨aligned, h⟩⟩
  · rw [if_neg aligned, followed]
    refine exists_congr fun d => and_congr_left fun _ => and_congr_right fun _ => not_congr ?_
    exact (or_iff_left fun h => aligned h.1).symm

/-- A deletion leaves no dangling alias iff it orphans none. -/
theorem noDangling_deleted_iff (hc : c.Sound) (ht : c.tree? n.tree = some t) {data : NodeData}
    {above : Handle} (hp : t.parent? n.handle = some above) :
    (c.deleted n t data above).NoDangling ↔
      ¬Orphaned (c.LeftByDeletion n t above) data.anchor :=
  noDangling_iff_of_left (names_deleted hc ht hp) fun _ none => by cases none

/-! ## Edits -/

/-- A default node below the root changes its type. -/
def Retypes (c : Configuration) (n : NodeRef) (live new : NodeData) : Prop :=
  (n.tree = .default ∧ (c.default.parent? n.handle).isSome) ∧ live.type ≠ new.type

theorem Retypes.tree_ne {new : NodeData} (h : c.Retypes n live new) : n.tree ≠ .environments := by
  rw [h.1.1]
  simp

/-- What is below a node vanishes when the node becomes or stays a scalar, and the items of a default
array when it becomes anything else. -/
def Empties (c : Configuration) (n : NodeRef) (live new : NodeData) : Prop :=
  new.type.isScalar ∨ c.Retypes n live new ∧ live.type = .array

/-- The nodes that vanish when a node is edited. -/
def VanishesInEdit (c : Configuration) (n : NodeRef) (t : Tree) (live new : NodeData) (x : NodeRef) :
    Prop :=
  c.Empties n live new ∧ x.tree = n.tree ∧ t.Under n.handle x.handle ∧ x.handle ≠ n.handle ∨
    c.Retypes n live new ∧ x.tree = .environments ∧
      ∃ o ∈ c.environments.overrides (c.default.alignedPath n.handle),
        c.environments.Under o x.handle

/-- A node that an edit leaves: the edited node with its new data, and others. -/
def LeftByEdit (c : Configuration) (n : NodeRef) (t : Tree) (live new : NodeData) (x : NodeRef)
    (d : NodeData) : Prop :=
  (if x = n then d = new else c.data? x = some d) ∧ ¬c.VanishesInEdit n t live new x

/-- The default tree before the draft is written. -/
theorem default_before (hl : c.default.data? n.handle = some live) (new : NodeData) (m : Markers) :
    (c.Retypes n live new ∧ live.type = .array) ∧
        (c.alignEdit n live new m).default = c.default.clear n.handle ∨
      ¬(c.Retypes n live new ∧ live.type = .array) ∧
        (∀ h, ((c.alignEdit n live new m).default.data? h).map NodeData.names =
          (c.default.data? h).map NodeData.names) ∧
        ∀ h x, (c.alignEdit n live new m).default.Under h x ↔ c.default.Under h x := by
  have array : c.default.isArray n.handle = (live.type == .array) := by rw [Tree.isArray, hl]
  unfold alignEdit Retypes
  by_cases below : n.tree = .default ∧ (c.default.parent? n.handle).isSome
  · rw [if_pos below]
    by_cases type : live.type = new.type
    · rw [if_neg (not_not.2 type)]
      refine Or.inr ⟨fun h => h.1.2 type, ?_⟩
      split
      · unfold alignKeyRename
        split
        · exact ⟨fun _ => rfl, fun _ _ => Iff.rfl⟩
        · exact ⟨Tree.map_data?_renameReferences (fun _ _ => rfl) _ _ _ _ _,
            Tree.under_renameReferences _ _ _ _ _⟩
      · exact ⟨fun _ => rfl, fun _ _ => Iff.rfl⟩
    · rw [if_pos type]
      unfold alignTypeChange
      dsimp only
      by_cases isArray : live.type = .array
      · rw [array, if_pos (by simpa using isArray)]
        exact Or.inl ⟨⟨⟨below, type⟩, isArray⟩, rfl⟩
      · rw [array, if_neg (by simpa using isArray)]
        exact Or.inr ⟨fun h => isArray h.2, fun _ => rfl, fun _ _ => Iff.rfl⟩
  · rw [if_neg below]
    exact Or.inr ⟨fun h => below h.1.1, fun _ => rfl, fun _ _ => Iff.rfl⟩

/-- The environments tree before the draft is written. -/
theorem environments_before (he : c.environments.Sound) (n : NodeRef) (live new : NodeData)
    (m : Markers) (h : Handle) (k : Option String × List String) :
    ((c.alignEdit n live new m).environments.data? h).map NodeData.names = some k ↔
      (c.environments.data? h).map NodeData.names = some k ∧
        ¬(c.Retypes n live new ∧ ∃ o ∈ c.environments.overrides (c.default.alignedPath n.handle),
          c.environments.Under o h) := by
  unfold alignEdit Retypes
  by_cases below : n.tree = .default ∧ (c.default.parent? n.handle).isSome
  · rw [if_pos below]
    by_cases type : live.type = new.type
    · rw [if_neg (not_not.2 type), and_iff_left fun h => h.1.2 type]
      split
      · unfold alignKeyRename
        split
        · rfl
        · dsimp only
          rw [Tree.map_data?_renameReferences fun _ _ => rfl]
          rw [Tree.map_data?_alignOverrides (f := fun d => { d with key := new.key }) fun _ => rfl]
      · rfl
    · have retypes : (n.tree = .default ∧ (c.default.parent? n.handle).isSome) ∧
        live.type ≠ new.type := ⟨below, type⟩
      rw [if_pos type, and_iff_right retypes]
      exact he.map_data?_of_prune (sound_kept.removeOverrides he _)
        (he.firstKeyed_removeOverrides _) names_first
  · rw [if_neg below, and_iff_left fun h => below h.1.1]

/-- The tree of the node once the draft is written. -/
theorem names_written {u : Tree} (hu : u.Sound) {h : Handle} {new : Draft}
    (leaf : new.children = .nil) (x : Handle) (k : Option String × List String) :
    ((writeDraft u h new).data? x).map NodeData.names = some k ↔
      (if x = h then u.contains h ∧ k = new.label.names
        else (u.data? x).map NodeData.names = some k) ∧
        ¬(new.label.type.isScalar ∧ u.Under h x ∧ x ≠ h) := by
  have modified : ((u.modify h fun _ => new.label).data? x).map NodeData.names = some k ↔
      if x = h then u.contains h ∧ k = new.label.names
        else (u.data? x).map NodeData.names = some k := by
    rw [Tree.data?_modify, Option.map_map]
    split
    · rename_i here
      subst here
      rw [Tree.contains, Tree.data?]
      cases u.find? x with
      | none => simp
      | some r => simp [eq_comm]
    · rename_i other
      rfl
  rw [writeDraft_leaf leaf]
  split
  · rename_i scalar
    rw [(hu.modify h _).map_data?_clear names_first, modified, Tree.under_modify]
    simp [scalar]
  · rename_i container
    rw [modified]
    simp [container]

/-- Before the draft is written: nodes vanish as the type changes, and no node that is left has moved
under another. -/
theorem names_before (hc : c.Sound) (ht : c.tree? n.tree = some t)
    (hl : t.data? n.handle = some live) (new : NodeData) (m : Markers) (x : NodeRef)
    (k : Option String × List String) :
    ((c.alignEdit n live new m).data? x).map NodeData.names = some k ↔
      (c.data? x).map NodeData.names = some k ∧
        ¬((c.Retypes n live new ∧ live.type = .array) ∧ x.tree = n.tree ∧
          t.Under n.handle x.handle ∧ x.handle ≠ n.handle) ∧
        ¬(c.Retypes n live new ∧ x.tree = .environments ∧
          ∃ o ∈ c.environments.overrides (c.default.alignedPath n.handle),
            c.environments.Under o x.handle) := by
  obtain ⟨kind, h⟩ := x
  cases kind with
  | detached => simp [data?, tree?]
  | environments =>
    have none : ¬((c.Retypes n live new ∧ live.type = .array) ∧ TreeKind.environments = n.tree ∧
        t.Under n.handle h ∧ h ≠ n.handle) := fun gone => by
      have default := gone.1.1.1.1
      rw [← gone.2.1] at default
      cases default
    rw [and_iff_right none, and_iff_right rfl]
    exact environments_before hc.2 n live new m h k
  | default =>
    rw [and_iff_left (b := ¬(c.Retypes n live new ∧ TreeKind.default = .environments ∧ _)) (by simp)]
    by_cases here : n.tree = .default
    · rw [here] at ht
      cases ht
      rcases default_before (c := c) hl new m with ⟨gone, cleared⟩ | ⟨none, same, -⟩
      · rw [and_iff_right gone, and_iff_right here.symm]
        refine Iff.trans ?_ (hc.1.map_data?_clear (h := n.handle) (x := h) (m := k) names_first)
        rw [← cleared]
        rfl
      · rw [and_iff_left fun gone => none gone.1]
        exact Iff.of_eq (congrArg (· = some k) (same h))
    · have same : c.alignEdit n live new m = c := by
        unfold alignEdit
        exact if_neg fun below => here below.1
      rw [same, and_iff_left fun gone => here gone.1.1.1.1]

theorem under_before (hc : c.Sound) (ht : c.tree? n.tree = some t)
    (hl : t.data? n.handle = some live) {new : NodeData} {m : Markers} {u : Tree}
    (hu : (c.alignEdit n live new m).tree? n.tree = some u) {h : Handle} (other : h ≠ n.handle)
    (there : (u.data? h).isSome) : u.Under n.handle h ↔ t.Under n.handle h := by
  by_cases here : n.tree = .default
  · rw [here] at ht hu
    cases ht
    cases hu
    rcases default_before (c := c) hl new m with ⟨-, cleared⟩ | ⟨-, -, same⟩
    · -- neither tree has a node left below the one that is cleared
      rw [cleared] at there ⊢
      obtain ⟨d, hd⟩ := Option.isSome_iff_exists.1 there
      have known : ((c.default.clear n.handle).data? h).map NodeData.names = some d.names := by
        rw [hd, Option.map_some]
      have again := known
      rw [← Tree.clear_clear] at again
      have left := ((hc.1.clear n.handle).map_data?_clear names_first).1 again
      have left' := (hc.1.map_data?_clear names_first).1 known
      exact iff_of_false (fun under => left.2 ⟨under, other⟩) fun under => left'.2 ⟨under, other⟩
    · exact same _ _
  · have same : c.alignEdit n live new m = c := by
      unfold alignEdit
      exact if_neg fun below => here below.1
    rw [same, ht] at hu
    cases hu
    rfl

theorem exists_data?_iff {P : Prop} {k : Option String × List String} :
    (∃ d, (c.data? x = some d ∧ P) ∧ k = d.names) ↔
      (c.data? x).map NodeData.names = some k ∧ P := by
  constructor
  · rintro ⟨d, ⟨hd, hP⟩, rfl⟩
    exact ⟨by rw [hd, Option.map_some], hP⟩
  · rintro ⟨known, hP⟩
    obtain ⟨d, hd, rfl⟩ := Option.map_eq_some_iff.1 known
    exact ⟨d, ⟨hd, hP⟩, rfl⟩

/-- The edited node and the others, before aliases follow the anchor. -/
theorem names_unfollowed (hc : c.Sound) (ht : c.tree? n.tree = some t)
    (hl : t.data? n.handle = some live) {new : Draft} (leaf : new.children = .nil) (m : Markers)
    (x : NodeRef) (k : Option String × List String) :
    (((c.alignEdit n live new.label m).mapTree n.tree
        (writeDraft · n.handle new)).data? x).map NodeData.names = some k ↔
      ∃ d, c.LeftByEdit n t live new.label x d ∧ k = d.names := by
  have sound := sound_alignEdit hc n live new.label m
  obtain ⟨u, hu⟩ := exists_tree? ht (c.alignEdit n live new.label m)
  have before := names_before hc ht hl new.label m
  rw [data?_mapTree hu]
  unfold LeftByEdit VanishesInEdit Empties
  by_cases here : x.tree = n.tree
  · have inTree : u.data? x.handle = (c.alignEdit n live new.label m).data? x :=
      (data?_of_tree? (here ▸ hu : (c.alignEdit n live new.label m).tree? x.tree = some u)).symm
    rw [if_pos here, names_written (sound.tree hu) leaf]
    by_cases itself : x = n
    · subst itself
      have there : u.contains x.handle := by
        have known := (before x live.names).2 ⟨by rw [data?_of_tree? ht, hl, Option.map_some],
          fun gone => gone.2.2.2 rfl, fun gone => gone.1.tree_ne gone.2.1⟩
        obtain ⟨d, hd, -⟩ := Option.map_eq_some_iff.1 known
        exact Tree.contains_of_data? (inTree.trans hd)
      have stays : ¬(c.Retypes x live new.label ∧ x.tree = .environments ∧
          ∃ o ∈ c.environments.overrides (c.default.alignedPath x.handle),
            c.environments.Under o x.handle) := fun gone => gone.1.tree_ne gone.2.1
      simp [there, stays]
    · have other : x.handle ≠ n.handle := fun same => itself (by
        obtain ⟨kind, h⟩ := x
        cases here
        cases same
        rfl)
      have under : ∀ {k}, ((c.alignEdit n live new.label m).data? x).map NodeData.names = some k →
          (u.Under n.handle x.handle ↔ t.Under n.handle x.handle) := by
        intro k known
        obtain ⟨d, hd, -⟩ := Option.map_eq_some_iff.1 known
        exact under_before hc ht hl hu other (by rw [inTree, hd]; rfl)
      simp only [if_neg itself, if_neg other, exists_data?_iff]
      rw [inTree]
      constructor
      · rintro ⟨known, kept⟩
        obtain ⟨known', kept', -⟩ := (before x k).1 known
        refine ⟨known', ?_⟩
        rintro (⟨scalar | array, -, below, -⟩ | ⟨retypes, away, -⟩)
        · exact kept ⟨scalar, (under known).2 below, other⟩
        · exact kept' ⟨array, here, below, other⟩
        · exact retypes.tree_ne (here ▸ away)
      · rintro ⟨known, kept⟩
        have known' := (before x k).2 ⟨known, fun gone => kept (Or.inl ⟨Or.inr gone.1, gone.2⟩),
          fun gone => kept (Or.inr gone)⟩
        refine ⟨known', ?_⟩
        rintro ⟨scalar, below, -⟩
        exact kept (Or.inl ⟨Or.inl scalar, here, (under known').1 below, other⟩)
  · have other : x ≠ n := fun same => here (congrArg NodeRef.tree same)
    simp only [if_neg here, if_neg other, exists_data?_iff]
    rw [before]
    refine and_congr_right fun _ => ?_
    constructor
    · rintro ⟨-, kept⟩ (⟨-, same, -⟩ | gone)
      · exact here same
      · exact kept gone
    · intro kept
      exact ⟨fun gone => here gone.2.1, fun gone => kept (Or.inr gone)⟩

/-- **What an edit leaves.** The nodes that do not vanish, the edited one with its new data, their
aliases following its anchor. -/
theorem names_edited (hc : c.Sound) (ht : c.tree? n.tree = some t)
    (hl : t.data? n.handle = some live) {new : Draft} (leaf : new.children = .nil) (m : Markers)
    (x : NodeRef) (k : Option String × List String) :
    ((c.edited n live new m).data? x).map NodeData.names = some k ↔
      ∃ d, c.LeftByEdit n t live new.label x d ∧
        k = (d.anchor, followAnchor live.anchor new.label.anchor d.aliases) := by
  have written := names_unfollowed hc ht hl leaf m x
  rw [edited, data?_alignAnchor, Option.map_map]
  generalize (c.alignEdit n live new.label m).mapTree n.tree (writeDraft · n.handle new) = c₁
    at written ⊢
  constructor
  · intro found
    obtain ⟨d', hd', rfl⟩ := Option.map_eq_some_iff.1 found
    obtain ⟨d, hd, same⟩ := (written d'.names).1 (by rw [hd', Option.map_some])
    refine ⟨d, hd, ?_⟩
    rw [Function.comp_apply, names_following, same]
    rfl
  · rintro ⟨d, hd, rfl⟩
    obtain ⟨d', hd', same⟩ := Option.map_eq_some_iff.1 ((written d.names).2 ⟨d, hd, rfl⟩)
    rw [hd', Option.map_some, Function.comp_apply, names_following, same]
    rfl

/-- An edit leaves no dangling alias iff it orphans none. -/
theorem noDangling_edited_iff (hc : c.Sound) (ht : c.tree? n.tree = some t)
    (hl : t.data? n.handle = some live) {new : Draft} (leaf : new.children = .nil) (m : Markers) :
    (c.edited n live new m).NoDangling ↔
      ¬Orphaned (c.LeftByEdit n t live new.label) live.anchor := by
  refine noDangling_iff_of_left (names_edited hc ht hl leaf m) fun name anchor =>
    ⟨n, new.label, ⟨by rw [if_pos rfl], ?_⟩, anchor⟩
  rintro (⟨-, -, -, other⟩ | ⟨retypes, away, -⟩)
  · exact other rfl
  · exact retypes.tree_ne away

/-! ## Additions -/

/-- The node that an addition brings, and those that are there. -/
def LeftByAddition (c : Configuration) (parent : NodeRef) (t : Tree) (new : NodeData) (x : NodeRef)
    (d : NodeData) : Prop :=
  if x = ⟨parent.tree, t.next⟩ then d = new else c.data? x = some d

theorem names_added {parent : NodeRef} (hc : c.Sound) (ht : c.tree? parent.tree = some t)
    (there : t.contains parent.handle) (new : NodeData) (x : NodeRef)
    (k : Option String × List String) :
    ((c.mapTree parent.tree fun t => (t.graft parent.handle ⟨new, .nil⟩).1).data? x).map
        NodeData.names = some k ↔
      ∃ d, c.LeftByAddition parent t new x d ∧ k = (d.anchor, followAnchor none none d.aliases) := by
  have data : (c.mapTree parent.tree fun t => (t.graft parent.handle ⟨new, .nil⟩).1).data? x =
      if x = ⟨parent.tree, t.next⟩ then some new else c.data? x := by
    obtain ⟨kind, h⟩ := x
    rw [data?_mapTree ht]
    by_cases here : kind = parent.tree
    · subst here
      rw [if_pos rfl, (hc.tree ht).data?_graft_leaf there, data?_of_tree? (n := ⟨_, h⟩) ht]
      simp
    · rw [if_neg here, if_neg fun same => here (congrArg NodeRef.tree same)]
  rw [data]
  unfold LeftByAddition
  split
  · simp [NodeData.names, followAnchor, eq_comm]
  · rw [Option.map_eq_some_iff]
    exact exists_congr fun d => and_congr_right fun _ => eq_comm

/-- A node whose aliases are declared brings no dangling alias. -/
theorem noDangling_added {parent : NodeRef} (hc : c.Sound) (hd : c.NoDangling)
    (ht : c.tree? parent.tree = some t) (there : t.contains parent.handle) {new : NodeData}
    (declared : ∀ name ∈ new.aliases, new.anchor = some name ∨ c.Declares name) :
    (c.mapTree parent.tree fun t => (t.graft parent.handle ⟨new, .nil⟩).1).NoDangling := by
  refine (noDangling_iff_of_left (names_added hc ht there new) fun _ none => by cases none).2 ?_
  rintro ⟨name, -, ⟨x, d, left, inside⟩, none⟩
  -- the new handle is free, so what `c` declares is declared as before
  have undeclared : ¬c.Declares name := by
    rintro ⟨y, -, found⟩
    obtain ⟨d', hd', anchor⟩ := Option.bind_eq_some_iff.1 found
    refine none y d' ?_ anchor
    unfold LeftByAddition
    rw [if_neg, hd']
    rintro rfl
    rw [data?_of_tree? (n := ⟨parent.tree, t.next⟩) ht] at hd'
    exact Nat.lt_irrefl _ ((hc.tree ht).below _ (Tree.contains_iff.1 (Tree.contains_of_data? hd')))
  unfold LeftByAddition at left
  split at left
  · rename_i here
    subst left here
    rcases declared name inside with own | declares
    · exact none _ _ (by rw [LeftByAddition, if_pos rfl]) own
    · exact undeclared declares
  · exact undeclared (hd x (mem_refs_of_data? left) d left name inside)

/-! ## Orphaned aliases -/

/-- An orphaned anchor was declared by a node that vanished. -/
theorem Orphaned.exists_vanished {left : NodeRef → NodeData → Prop} {own : Option String}
    {vanishes : NodeRef → Prop} (orphaned : Orphaned left own)
    (declared : ∀ x d, left x d → ∀ name ∈ d.aliases, d.anchor = some name ∨ c.Declares name)
    (kept : ∀ x d, c.data? x = some d → vanishes x ∨ left x d ∨ d.anchor = own) :
    ∃ x d, c.data? x = some d ∧ vanishes x ∧ d.anchor.isSome ∧ d.anchor ≠ own := by
  obtain ⟨name, other, ⟨x, d, left, inside⟩, none⟩ := orphaned
  rcases declared x d left name inside with here | ⟨y, -, found⟩
  · exact absurd here (none x d left)
  · obtain ⟨d', hd', anchor⟩ := Option.bind_eq_some_iff.1 found
    have own_ne : d'.anchor ≠ own := fun same => other (same ▸ anchor)
    rcases kept y d' hd' with gone | stays | same
    · exact ⟨y, d', hd', gone, by rw [anchor]; rfl, own_ne⟩
    · exact absurd anchor (none y d' stays)
    · exact absurd same own_ne

end Configuration

/-! ## Admitted drafts -/

namespace Draft

variable {draft new : Draft}

theorem sanitized_names (h : draft.sanitized = .ok new) : new.label.names = draft.label.names := by
  unfold sanitized at h
  dsimp only at h
  split at h
  · cases h
    rfl
  · split at h
    · split at h
      · cases h
        rfl
      · cases h
    · cases h
      rfl

end Draft

namespace Configuration

variable {t : Tree} {n : NodeRef} {parent : Handle} {data live : NodeData} {path : String}
  {draft new : Draft}

theorem admittedBelow_names (ha : admittedBelow t parent data path draft = .ok new) :
    new.label.names = draft.label.names := by
  obtain ⟨-, key, ha⟩ := admittedBelow_sanitized ha
  have names := Draft.sanitized_names ha
  exact names

theorem admittedEdit_names (ha : admittedEdit t n live draft = .ok new) :
    new.label.names = draft.label.names := by
  obtain ⟨key, type, ha⟩ := admittedEdit_sanitized ha
  have names := Draft.sanitized_names ha
  exact names

/-- The aliases of a draft name anchors: its own, or one that a node declares. -/
def Names (c : Configuration) (draft : Draft) : Prop :=
  ∀ name ∈ draft.label.aliases, draft.label.anchor = some name ∨ c.Declares name

instance (c : Configuration) (draft : Draft) : Decidable (c.Names draft) :=
  inferInstanceAs (Decidable (∀ name ∈ draft.label.aliases, _ ∨ _))

theorem Names.of_names {c : Configuration} (h : c.Names draft)
    (same : new.label.names = draft.label.names) : c.Names new := by
  obtain ⟨anchor, aliases⟩ := Prod.mk.inj same
  intro name inside
  rw [anchor]
  exact h name (aliases ▸ inside)

end Configuration

/-! ## Steps and runs -/

namespace Session

variable {s : Session} {a : Action}

/-- A step that takes away every declaration of an anchor, not the node's own, that a node which is
left repeats. -/
inductive Orphans (s : Session) : Action → Prop
  | edited {draft : Draft} {n : NodeRef} {t : Tree} {live : NodeData} {new : Draft}
    (h : s.Edits draft n t live new)
    (orphaned : Configuration.Orphaned (s.config.LeftByEdit n t live new.label) live.anchor) :
    Orphans s (.commit draft)
  | deleted {a : Action} {n : NodeRef} {t : Tree} {data : NodeData} {above : Handle}
    (h : s.Deletes n t data above) (ha : a = .delete n .yes ∨ a = .doDelete n)
    (orphaned : Configuration.Orphaned (s.config.LeftByDeletion n t above) data.anchor) :
    Orphans s a

/-- The nodes that a step makes vanish beside the one that is edited or deleted. -/
inductive Drops (s : Session) : Action → NodeRef → Prop
  | edited {draft : Draft} {n : NodeRef} {t : Tree} {live : NodeData} {new : Draft} {x : NodeRef}
    (h : s.Edits draft n t live new) (vanishes : s.config.VanishesInEdit n t live new.label x) :
    Drops s (.commit draft) x
  | deleted {a : Action} {n : NodeRef} {t : Tree} {data : NodeData} {above : Handle} {x : NodeRef}
    (h : s.Deletes n t data above) (ha : a = .delete n .yes ∨ a = .doDelete n) (other : x ≠ n)
    (vanishes : s.config.VanishesInDeletion n t above x) :
    Drops s a x

/-- Aliases are orphaned only where a node with an anchor vanishes beside the one that is edited or
deleted. -/
theorem Orphans.exists_drops (hd : s.config.NoDangling)
    (named : ∀ draft, a = .commit draft → s.config.Names draft) (h : s.Orphans a) :
    ∃ x d, s.config.data? x = some d ∧ s.Drops a x ∧ d.anchor.isSome := by
  have known : ∀ x d, s.config.data? x = some d →
      ∀ name ∈ d.aliases, d.anchor = some name ∨ s.config.Declares name := fun x d hx name inside =>
    Or.inr (hd x (Configuration.mem_refs_of_data? hx) d hx name inside)
  cases h with
  | @edited draft n t live new h orphaned =>
    have live_eq := (Configuration.data?_of_tree? h.tree).trans h.known
    have declared : ∀ x d, s.config.LeftByEdit n t live new.label x d →
        ∀ name ∈ d.aliases, d.anchor = some name ∨ s.config.Declares name := by
      rintro x d ⟨left, -⟩
      split at left
      · subst left
        exact (named draft rfl).of_names (Configuration.admittedEdit_names h.admitted)
      · exact known x d left
    obtain ⟨x, d, hx, vanishes, anchored, -⟩ := orphaned.exists_vanished declared fun x d hx => by
      by_cases here : x = n
      · subst here
        rw [live_eq] at hx
        cases hx
        exact Or.inr (Or.inr rfl)
      · by_cases gone : s.config.VanishesInEdit n t live new.label x
        · exact Or.inl gone
        · exact Or.inr (Or.inl ⟨by rwa [if_neg here], gone⟩)
    exact ⟨x, d, hx, .edited h vanishes, anchored⟩
  | @deleted _ n t data above h ha orphaned =>
    have data_eq := (Configuration.data?_of_tree? h.tree).trans h.known
    obtain ⟨x, d, hx, vanishes, anchored, other⟩ := orphaned.exists_vanished
      (fun x d left => known x d left.1) fun x d hx => by
        by_cases gone : s.config.VanishesInDeletion n t above x
        · exact Or.inl gone
        · exact Or.inr (Or.inl ⟨hx, gone⟩)
    refine ⟨x, d, hx, .deleted h ha (fun here => other ?_) vanishes, anchored⟩
    subst here
    rw [data_eq] at hx
    cases hx
    rfl

/-- **One step.** Where no alias dangles none dangles after a step iff the step orphans none. -/
theorem noDangling_perform_iff (hs : s.config.Sound) (hd : s.config.NoDangling)
    (drafts : ∀ draft, a = .commit draft → draft.isLeaf ∧ s.config.Names draft) :
    (s.perform a).config.NoDangling ↔ ¬s.Orphans a := by
  constructor
  · rintro after (⟨h, orphaned⟩ | ⟨h, ha, orphaned⟩)
    · have leaf := (Configuration.admittedEdit_ok h.admitted).1 (drafts _ rfl).1
      rw [h.config_perform] at after
      exact (Configuration.noDangling_edited_iff hs h.tree h.known leaf _).1 after orphaned
    · rw [h.config_perform ha] at after
      exact (Configuration.noDangling_deleted_iff hs h.tree h.parent).1 after orphaned
  · intro fine
    have effect := effect_perform s a
    generalize (s.perform a).config = after at effect ⊢
    cases effect with
    | nothing => exact hd
    | @added draft parent t data new h =>
      have new_eq : new = ⟨new.label, .nil⟩ := by
        rw [← (Configuration.admittedBelow_ok h.admitted).1 (drafts _ rfl).1]
      rw [new_eq]
      exact Configuration.noDangling_added hs hd h.tree (Tree.contains_of_data? h.known)
        ((drafts _ rfl).2.of_names (Configuration.admittedBelow_names h.admitted))
    | edited h =>
      have leaf := (Configuration.admittedEdit_ok h.admitted).1 (drafts _ rfl).1
      exact (Configuration.noDangling_edited_iff hs h.tree h.known leaf _).2 fun orphaned =>
        fine (.edited h orphaned)
    | deleted h ha =>
      exact (Configuration.noDangling_deleted_iff hs h.tree h.parent).2 fun orphaned =>
        fine (.deleted h ha orphaned)

/-- **Aliases over a run.** In a session without dangling aliases none dangles after any step of a
run, the drafts of which have no children and name anchors that are declared, iff no step of the run
orphans an alias. -/
theorem noDangling_run_iff (hs : s.config.Sound) (hd : s.config.NoDangling) {actions : List Action}
    (drafts : ∀ before draft, before ++ [.commit draft] <+: actions →
      draft.isLeaf ∧ (s.run before).config.Names draft) :
    (∀ before, before <+: actions → (s.run before).config.NoDangling) ↔
      ∀ before a, before ++ [a] <+: actions → ¬(s.run before).Orphans a := by
  refine forall_run_iff (P := fun s => s.config.NoDangling) hd fun before a inside all => ?_
  have sound : (s.run before).config.Sound :=
    run_induction (P := fun s => s.config.Sound) hs fun _ a _ h => sound_perform h a
  refine noDangling_perform_iff sound all ?_
  rintro draft rfl
  exact drafts before draft inside

/-- A property that repeats an anchor inside its sibling. -/
def repeatedInside : Session where
  config :=
    { default := .ofDrafts .default <|
        .cons { key := "a" } (.ofRose ⟨{ NodeData.ofScalar "x" (.number (.int 1)) with
          anchor := some "h" }, .nil⟩) <|
        .cons { key := "b", type := .number, aliases := ["h"] } .nil .nil
      environments := .empty .environments }
  markers := .standard
  known := []

/-- The sibling goes, and the anchor with it. -/
def deleteSibling : List Action := [.doDelete ⟨.default, 1⟩]

/-- The run orphans the alias, since it leaves one dangling. -/
theorem noDangling_run_iff_deleteSibling :
    repeatedInside.config.Sound ∧ repeatedInside.config.NoDangling ∧
      ∃ before a, before ++ [a] <+: deleteSibling ∧ (repeatedInside.run before).Orphans a := by
  have sound : repeatedInside.config.Sound := by decide +kernel
  have fine : repeatedInside.config.NoDangling := by decide +kernel
  refine ⟨sound, fine, ?_⟩
  by_contra none
  have none_committed : ∀ before draft, before ++ [.commit draft] <+: deleteSibling →
      draft.isLeaf ∧ (repeatedInside.run before).config.Names draft := by
    intro before draft inside
    have last := inside.subset (List.mem_append_right _ List.mem_cons_self)
    cases List.mem_singleton.1 last
  have all := (noDangling_run_iff sound fine none_committed).2 fun before a inside orphans =>
    none ⟨before, a, inside, orphans⟩
  have after := all deleteSibling (List.prefix_refl _)
  revert after
  decide +kernel

/-- `a` is deleted with the anchor inside it, and `b` still repeats the anchor. -/
theorem alias_of_deleted_anchor :
    repeatedInside.config.NoDangling ∧
      (repeatedInside.doDelete ⟨.default, 1⟩).1 = .ok () ∧
      ¬(repeatedInside.doDelete ⟨.default, 1⟩).2.config.NoDangling :=
  ⟨by decide +kernel, by rfl, by decide +kernel⟩

end Session

end LayeredConfig
