import LayeredConfig.Proofs.Session.Types
import LayeredConfig.Proofs.Tree.WellFormed

/-!
# The view of a session

What a session shows, the expanded nodes and the node that is being composed, is named by handles,
and these outlive the nodes that they name. A view is `Settled` when each of them names a node. It is
so after every refresh, after every commit and after every deletion that succeeds (`Settles`), since
these drop what names none.

A step gives out handles from the next one on (`fresh_perform`), so a node that was removed is not
there again after any further steps, and no settled view shows it (`settled_run`).
-/

namespace LayeredConfig

/-! ## Trees -/

namespace Tree

variable {t t' : Tree} {h x : Handle}

theorem SameKeys.handles (same : t.SameKeys t') : t'.forest.handles = t.forest.handles := by
  rw [handles_eq_map, same.top, ← handles_eq_map]

theorem SameKeys.fresh (same : t.SameKeys t') : Fresh t t' :=
  fresh_of_sublist (same.handles ▸ List.Sublist.refl _) same.next

theorem handles_modify (t : Tree) (h : Handle) (f : NodeData → NodeData) :
    (t.modify h f).forest.handles = t.forest.handles := by
  rw [forest_modify]
  exact Forest.handles_map (fun e => by split <;> rfl) _

theorem fresh_modify (t : Tree) (h : Handle) (f : NodeData → NodeData) : Fresh t (t.modify h f) :=
  fresh_of_sublist (handles_modify t h f ▸ List.Sublist.refl _) rfl

theorem fresh_remove (t : Tree) (h : Handle) : Fresh t (t.remove h).1 := by
  unfold remove
  split
  · exact fresh_keepChildren t _ _
  · exact .refl t

/-- A handle that was given out and names no node names none later. -/
theorem Fresh.not_mem (fresh : Fresh t t') (given : h < t.next) (lost : h ∉ t.forest.handles) :
    h ∉ t'.forest.handles := by
  intro back
  rcases fresh.handles h back with old | later
  · exact lost old
  · exact absurd given (Nat.not_lt.2 later)

theorem mem_handles_clear_self (hx : x ∈ t.forest.handles) : x ∈ (t.clear x).forest.handles := by
  rw [← contains_iff] at hx ⊢
  obtain ⟨r, hr⟩ := Option.isSome_iff_exists.1 hx
  have known : t.data? x = some r.label.data := by
    rw [data?, hr]
    rfl
  exact contains_of_data? ((data?_clear_self t x).trans known)

theorem mem_handles_graftAll (ht : t.Sound) (parent : Handle) (drafts : Forest NodeData)
    (hx : x ∈ t.forest.handles) : x ∈ (t.graftAll parent drafts).1.forest.handles := by
  unfold graftAll
  split
  · rename_i there
    have nodes := Forest.handles_adjust_append ht.distinct (contains_iff.1 there)
      (drafts.number t.next).1
    exact nodes.mem_iff.2 (List.mem_append_left _ hx)
  · exact hx

/-- The node that is added is there. -/
theorem mem_handles_graft (there : t.contains h) (draft : Draft) :
    t.next ∈ (t.graft h draft).1.forest.handles := by
  have child : t.next ∈ (t.graft h draft).1.children h := by
    rw [children_graft there]
    exact List.mem_append_right _ List.mem_cons_self
  obtain ⟨r, hr, e, he, same⟩ := mem_children_iff.1 child
  rw [← same]
  exact Forest.mem_handles_of_mem_children (find?_mem hr) he

end Tree

namespace Configuration

variable {c c' c'' : Configuration} {t : Tree} {n : NodeRef} {live : NodeData} {new : Draft}

theorem contains_iff : c.contains n ↔ ∃ t, c.tree? n.tree = some t ∧ n.handle ∈ t.forest.handles := by
  unfold contains data?
  cases tree : c.tree? n.tree with
  | none => simp
  | some t =>
    rw [Option.bind_some, Tree.data?, Option.isSome_map]
    simp [← Tree.contains_iff, Tree.contains]

/-- What holds of the trees of two configurations holds of those of one kind. -/
theorem exists_tree_of_both {R : Tree → Tree → Prop} (hd : R c.default c'.default)
    (he : R c.environments c'.environments) {kind : TreeKind} (ht : c.tree? kind = some t) :
    ∃ t', c'.tree? kind = some t' ∧ R t t' := by
  cases kind with
  | default => cases ht; exact ⟨_, rfl, hd⟩
  | environments => cases ht; exact ⟨_, rfl, he⟩
  | detached => cases ht

theorem tree?_mapTree {kind : TreeKind} (ht : c.tree? kind = some t) (f : Tree → Tree) :
    (c.mapTree kind f).tree? kind = some (f t) := by
  cases kind with
  | default => cases ht; rfl
  | environments => cases ht; rfl
  | detached => cases ht

/-! ## Handles given out by an edit -/

/-- The nodes of both trees are earlier ones or have handles given out since. -/
structure Fresh (c c' : Configuration) : Prop where
  default : Tree.Fresh c.default c'.default
  environments : Tree.Fresh c.environments c'.environments

theorem Fresh.refl (c : Configuration) : Fresh c c := ⟨.refl _, .refl _⟩

theorem Fresh.trans (h : Fresh c c') (h' : Fresh c' c'') : Fresh c c'' :=
  ⟨h.default.trans h'.default, h.environments.trans h'.environments⟩

theorem SameKeys.fresh (same : c.SameKeys c') : Fresh c c' :=
  ⟨same.default.fresh, same.environments.fresh⟩

theorem fresh_mapTree {kind : TreeKind} {f : Tree → Tree}
    (hf : ∀ t, c.tree? kind = some t → Tree.Fresh t (f t)) : Fresh c (c.mapTree kind f) := by
  cases kind with
  | default => exact ⟨hf _ rfl, .refl _⟩
  | environments => exact ⟨.refl _, hf _ rfl⟩
  | detached => exact .refl c

theorem fresh_removeOverrides (t : Tree) (path : List String) :
    Tree.Fresh t (t.removeOverrides path).1 :=
  List.foldlRecOn (motive := Tree.Fresh t) _ _ (.refl t) fun t' fresh h _ =>
    fresh.trans (t'.fresh_remove h)

theorem fresh_deleted (c : Configuration) (n : NodeRef) (t : Tree) (data : NodeData)
    (above : Handle) : Fresh c (c.deleted n t data above) := by
  have removed : Fresh c (c.mapTree n.tree fun t => (t.remove n.handle).1) :=
    fresh_mapTree fun t _ => t.fresh_remove n.handle
  unfold deleted
  dsimp only
  generalize c.mapTree n.tree (fun t => (t.remove n.handle).1) = c₁ at removed ⊢
  have aligned : ∀ c₂, Fresh c c₂ → Fresh c (if n.tree = .default ∧ !t.isArray above then
      (c₂.alignDeletion (t.alignedPath n.handle)).1 else c₂) := by
    intro c₂ fresh
    split
    · exact fresh.trans ⟨.refl _, fresh_removeOverrides _ _⟩
    · exact fresh
  cases data.anchor with
  | none => exact aligned _ removed
  | some anchor =>
    refine aligned _ (removed.trans (SameKeys.fresh ⟨?_, ?_⟩))
    · exact c₁.default.sameKeys_removeAlias anchor
    · exact c₁.environments.sameKeys_removeAlias anchor

theorem fresh_alignEdit (c : Configuration) (n : NodeRef) (live new : NodeData) (m : Markers) :
    Fresh c (c.alignEdit n live new m) := by
  constructor
  · rcases c.default_alignEdit n live new m with same | cleared
    · exact same.fresh
    · rw [cleared]
      exact c.default.fresh_clear n.handle
  · unfold alignEdit
    split
    · split
      · exact fresh_removeOverrides _ _
      · split
        · unfold alignKeyRename
          split
          · exact .refl _
          · refine Tree.Fresh.trans ?_ (Tree.sameKeys_renameReferences _ _ _ _ _).fresh
            exact List.foldlRecOn (motive := Tree.Fresh c.environments) _ _ (.refl _)
              fun t fresh h _ => fresh.trans (t.fresh_modify h _)
        · exact .refl _
    · exact .refl _

theorem fresh_writeDraft (ht : t.Sound) (h : Handle) (new : Draft) :
    Tree.Fresh t (writeDraft t h new) := by
  have written := t.fresh_modify h fun _ => new.label
  have sound := ht.modify h fun _ => new.label
  unfold writeDraft
  dsimp only
  split
  · exact written.trans (Tree.fresh_clear _ h)
  · split
    · exact written
    · exact (written.trans (Tree.fresh_clear _ h)).trans (Tree.fresh_graftAll (sound.clear h) h _)

theorem fresh_edited (hc : c.Sound) (n : NodeRef) (live : NodeData) (new : Draft) (m : Markers) :
    Fresh c (c.edited n live new m) := by
  have aligned := c.fresh_alignEdit n live new.label m
  have sound := sound_alignEdit hc n live new.label m
  refine (aligned.trans (fresh_mapTree fun t ht => ?_)).trans (sameKeys_alignAnchor _ _ _).fresh
  exact fresh_writeDraft (sound.tree ht) n.handle new

/-- A node that was removed is not there again. -/
theorem Fresh.not_contains (hc : c.Sound) (there : c.contains n) (before : Fresh c c')
    (removed : ¬c'.contains n) (after : Fresh c' c'') : ¬c''.contains n := by
  obtain ⟨t, ht, inside⟩ := contains_iff.1 there
  have given := (hc.tree ht).below _ inside
  obtain ⟨t', ht', fresh⟩ := exists_tree_of_both before.default before.environments ht
  obtain ⟨t'', ht'', fresh'⟩ := exists_tree_of_both after.default after.environments ht'
  intro back
  obtain ⟨u, hu, again⟩ := contains_iff.1 back
  cases ht''.symm.trans hu
  refine fresh'.not_mem (Nat.lt_of_lt_of_le given fresh.next) (fun still => removed ?_) again
  exact contains_iff.2 ⟨t', ht', still⟩

/-! ## The node of a commit -/

theorem mem_handles_writeDraft (ht : t.Sound) {h : Handle} (there : h ∈ t.forest.handles)
    (new : Draft) : h ∈ (writeDraft t h new).forest.handles := by
  have written : h ∈ (t.modify h fun _ => new.label).forest.handles := by
    rwa [Tree.handles_modify]
  have sound := ht.modify h fun _ => new.label
  unfold writeDraft
  dsimp only
  split
  · exact Tree.mem_handles_clear_self written
  · split
    · exact written
    · exact Tree.mem_handles_graftAll (sound.clear h) h _ (Tree.mem_handles_clear_self written)

theorem SameKeys.contains (same : c.SameKeys c') (there : c.contains n) : c'.contains n := by
  obtain ⟨t, ht, inside⟩ := contains_iff.1 there
  obtain ⟨t', ht', same⟩ := exists_tree_of_both same.default same.environments ht
  rw [← same.handles] at inside
  exact contains_iff.2 ⟨t', ht', inside⟩

theorem contains_mapTree {f : Tree → Tree} (ht : c.tree? n.tree = some t)
    (inside : n.handle ∈ (f t).forest.handles) : (c.mapTree n.tree f).contains n :=
  contains_iff.2 ⟨f t, tree?_mapTree ht f, inside⟩

/-- What an edit aligns leaves the node that is edited in its tree. -/
theorem contains_alignEdit (there : c.contains n) (live new : NodeData) (m : Markers) :
    (c.alignEdit n live new m).contains n := by
  by_cases kind : n.tree = .default
  · obtain ⟨t, ht, inside⟩ := contains_iff.1 there
    rw [kind] at ht
    cases ht
    refine contains_iff.2 ⟨(c.alignEdit n live new m).default, by rw [kind]; rfl, ?_⟩
    rcases c.default_alignEdit n live new m with same | cleared
    · rw [same.handles]
      exact inside
    · rw [cleared]
      exact Tree.mem_handles_clear_self inside
  · have same : c.alignEdit n live new m = c := by
      unfold alignEdit
      exact if_neg fun below => kind below.1
    rw [same]
    exact there

theorem contains_edited (hc : c.Sound) (there : c.contains n) (live : NodeData) (new : Draft)
    (m : Markers) : (c.edited n live new m).contains n := by
  refine (sameKeys_alignAnchor _ _ _).contains ?_
  obtain ⟨t, ht, inside⟩ := contains_iff.1 (contains_alignEdit there live new.label m)
  refine contains_mapTree ht ?_
  exact mem_handles_writeDraft ((sound_alignEdit hc n live new.label m).tree ht) inside new

end Configuration

/-! ## Steps and runs -/

namespace Session

variable {s : Session} {a : Action} {n node : NodeRef} {draft : Draft}

theorem fresh_perform (hs : s.config.Sound) (a : Action) :
    Configuration.Fresh s.config (s.perform a).config := by
  have effect := effect_perform s a
  generalize (s.perform a).config = after at effect ⊢
  cases effect with
  | nothing => exact .refl _
  | @added draft parent t data new h =>
    exact Configuration.fresh_mapTree fun t ht =>
      Tree.fresh_graftAll (hs.tree ht) parent.handle (.ofRose new)
  | edited => exact Configuration.fresh_edited hs _ _ _ _
  | deleted => exact Configuration.fresh_deleted _ _ _ _ _

theorem sound_run (hs : s.config.Sound) (actions : List Action) : (s.run actions).config.Sound :=
  run_induction (P := fun s => s.config.Sound) hs fun _ a _ h => sound_perform h a

theorem fresh_run (hs : s.config.Sound) (actions : List Action) :
    Configuration.Fresh s.config (s.run actions).config := by
  induction actions generalizing s with
  | nil => exact .refl _
  | cons a actions ih => exact (fresh_perform hs a).trans (ih (sound_perform hs a))

/-- Whatever the view shows is there: the expanded nodes, and the node that is being composed. -/
structure Settled (s : Session) : Prop where
  expanded : ∀ n, s.isExpanded n → s.config.contains n
  composing : ∀ p, s.state = .composing p → s.config.contains p.node

/-- The steps that leave a settled view: to refresh it, and a commit or a deletion that succeeds. -/
inductive Settles (s : Session) : Action → Prop
  | refreshed : Settles s .refresh
  | committed {draft : Draft} {node : NodeRef} (h : (s.commit draft).1 = .ok node) :
    Settles s (.commit draft)
  | deleted {n : NodeRef} {answer : Confirmation} (h : (s.delete n answer).1 = .ok true) :
    Settles s (.delete n answer)

theorem isExpanded_refresh : s.refresh.isExpanded n ↔ s.isExpanded n ∧ s.config.contains n := by
  unfold isExpanded refresh
  simp

theorem settled_refresh (s : Session) : s.refresh.Settled where
  expanded n shown := (isExpanded_refresh.1 shown).2
  composing p state := by
    unfold refresh at state ⊢
    cases known : s.state with
    | idle =>
      rw [known] at state
      cases state
    | composing q =>
      rw [known] at state
      dsimp only at state ⊢
      split at state
      · rename_i there
        cases state
        exact there
      · cases state

theorem Settled.cancel (settled : s.Settled) : s.cancel.Settled where
  expanded := settled.expanded
  composing _ state := by cases state

theorem isExpanded_mark : (s.mark node).isExpanded n ↔ n = node ∨ s.isExpanded n := by
  unfold isExpanded mark
  dsimp only
  split
  · rename_i shown
    refine ⟨Or.inr, fun h => ?_⟩
    rcases h with rfl | h
    · exact shown
    · exact h
  · simp

/-- A commit that succeeds writes into the configuration, marks the node and refreshes the view. -/
theorem commit_ok (hs : s.config.Sound) (h : (s.commit draft).1 = .ok node) :
    ∃ after : Session, after.config.contains node ∧ after.isExpanded node ∧
      (s.commit draft).2 = after.refresh.cancel := by
  cases state : s.state with
  | idle =>
    unfold commit at h
    rw [state] at h
    cases h
  | composing p =>
    generalize run : Editing.apply (if p.editing then Configuration.edit p.node draft s.markers
      else Configuration.addBelow p.node draft) s.config = result
    obtain ⟨r, c'⟩ := result
    have done := commit_of_composing state draft run
    cases r with
    | error e =>
      rw [done] at h
      cases h
    | ok node' =>
      rw [done] at h ⊢
      cases h
      refine ⟨_, ?_, isExpanded_mark.2 (Or.inl rfl), rfl⟩
      show c'.contains node
      cases editing : p.editing with
      | true =>
        rw [editing] at run
        obtain ⟨_, failed, -⟩ | ⟨t, live, new, ht, hl, -, same, rfl⟩ := Configuration.edit_cases run
        · cases failed
        · cases same
          have there : s.config.contains p.node := by
            rw [Configuration.contains, Configuration.data?_of_tree? ht, hl]
            rfl
          exact Configuration.contains_edited hs there live new _
      | false =>
        rw [editing] at run
        obtain ⟨_, failed, -⟩ | ⟨t, data, new, ht, hd, -, same, rfl⟩ :=
          Configuration.addBelow_cases run
        · cases failed
        · cases same
          refine Configuration.contains_mapTree (n := ⟨p.node.tree, t.next⟩) ht ?_
          exact Tree.mem_handles_graft (Tree.contains_of_data? hd) new

theorem Settles.settled (hs : s.config.Sound) (h : s.Settles a) : (s.perform a).Settled := by
  cases h with
  | refreshed => exact settled_refresh s
  | committed h =>
    obtain ⟨after, -, -, same⟩ := commit_ok hs h
    show (s.commit _).2.Settled
    rw [same]
    exact (settled_refresh after).cancel
  | @deleted n answer h =>
    show (s.delete n answer).2.Settled
    unfold delete at h ⊢
    cases answer with
    | failed => cases h
    | no => cases h
    | yes =>
      dsimp only at h ⊢
      split at h
      · rename_i after done
        exact (settled_refresh after).cancel
      · cases h

/-- A node that was there after some steps of a run and gone after some more of them. -/
def Removed (s : Session) (actions : List Action) (n : NodeRef) : Prop :=
  ∃ early more, early ++ more <+: actions ∧
    (s.run early).config.contains n ∧ ¬(s.run (early ++ more)).config.contains n

theorem Removed.not_contains (hs : s.config.Sound) {actions : List Action}
    (removed : s.Removed actions n) : ¬(s.run actions).config.contains n := by
  obtain ⟨early, more, ⟨later, rfl⟩, there, gone⟩ := removed
  rw [run_append] at gone
  rw [run_append, run_append]
  have sound := sound_run hs early
  exact Configuration.Fresh.not_contains sound there (fresh_run sound more) gone
    (fresh_run (sound_run sound more) later)

/-- **The view refers to no missing node.** Let a step of a run be a refresh, or a commit or a
deletion that succeeds. After it, every expanded node is there and so is the node that is being
composed; a node that was committed is there and expanded; and a node that was removed at any time
before is neither there nor expanded. -/
theorem settled_run (hs : s.config.Sound) {before : List Action}
    (settles : (s.run before).Settles a) :
    (s.run (before ++ [a])).Settled ∧
      (∀ draft node, a = .commit draft → ((s.run before).commit draft).1 = .ok node →
        (s.run (before ++ [a])).config.contains node ∧ (s.run (before ++ [a])).isExpanded node) ∧
      ∀ n, s.Removed (before ++ [a]) n →
        ¬(s.run (before ++ [a])).config.contains n ∧ ¬(s.run (before ++ [a])).isExpanded n := by
  have sound := sound_run hs before
  have settled : (s.run (before ++ [a])).Settled := by
    rw [run_concat]
    exact settles.settled sound
  refine ⟨settled, ?_, fun n removed => ?_⟩
  · rintro draft node rfl done
    obtain ⟨after, there, shown, same⟩ := commit_ok sound done
    have step : s.run (before ++ [.commit draft]) = after.refresh.cancel := by
      rw [run_concat]
      exact same
    rw [step]
    exact ⟨there, isExpanded_refresh.2 ⟨shown, there⟩⟩
  · have gone := removed.not_contains hs
    exact ⟨gone, fun shown => gone (settled.expanded n shown)⟩

/-- A default property inside another, and an environment that overrides it. -/
def overriddenInside : Session where
  config :=
    { default := .ofDrafts .default <|
        .cons { key := "a" } (.cons (.ofScalar "x" (.number (.int 1))) .nil .nil) .nil
      environments := .ofDrafts .environments <|
        .cons { key := "prod" }
          (.cons { key := "a" } (.cons (.ofScalar "x" (.number (.int 2))) .nil .nil) .nil) .nil }
  markers := .standard
  known := []

/-- The override is expanded and the property composed. Both go when the outer property is deleted,
and the view still shows the override. -/
def deleteShown : List Action :=
  [.expand ⟨.environments, 3⟩, .compose ⟨.default, 2⟩ true, .doDelete ⟨.default, 1⟩,
    .commit (.scalar "x" (.number (.int 3))), .compose ⟨.default, 0⟩ false]

/-- A commit into the root is the next that succeeds. -/
def addedOther : Action := .commit (.scalar "b" (.boolean true))

theorem settled_run_deleteShown :
    overriddenInside.config.Sound ∧ (overriddenInside.run deleteShown).isExpanded ⟨.environments, 3⟩ ∧
      (overriddenInside.run deleteShown).Settles addedOther ∧
      (overriddenInside.run (deleteShown ++ [addedOther])).Settled ∧
      (overriddenInside.run (deleteShown ++ [addedOther])).isExpanded ⟨.default, 3⟩ ∧
      ¬(overriddenInside.run (deleteShown ++ [addedOther])).isExpanded ⟨.environments, 3⟩ := by
  have sound : overriddenInside.config.Sound := by decide +kernel
  have done : ((overriddenInside.run deleteShown).commit (.scalar "b" (.boolean true))).1 =
      .ok ⟨.default, 3⟩ := by decide +kernel
  have removed : overriddenInside.Removed (deleteShown ++ [addedOther]) ⟨.environments, 3⟩ :=
    ⟨[], deleteShown, List.prefix_append _ _, by decide +kernel, by decide +kernel⟩
  obtain ⟨settled, node, gone⟩ := settled_run sound (.committed done)
  exact ⟨sound, by decide +kernel, .committed done, settled, (node _ _ rfl done).2, (gone _ removed).2⟩

end Session

end LayeredConfig
