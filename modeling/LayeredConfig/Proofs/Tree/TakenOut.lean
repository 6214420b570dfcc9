import LayeredConfig.Proofs.Tree.LocalPaths

/-!
# Subtrees taken out of a tree

`Tree.takeOut` is what is left of a tree without some of its subtrees: a node that is none of them and
below none of them stays, and an array that loses items keys the others by their new positions.
Removing nodes one after the other takes out their subtrees, in whatever order
(`Sound.removeAll_eq_takeOut`).

`TakenOut` says the same of handles, and what becomes of each: a node left has the parent it had, its
children are those it had but for the ones taken out, and its data are as they were but for the key of
an item that moved up (`Sound.takenOut`).
-/

namespace LayeredConfig

/-- The handles of the trees of a forest. -/
def Forest.rootHandles (f : Forest Entry) : List Handle := f.rootLabels.map (·.handle)

/-- What is left below a node: where an array loses some of the items `cs`, those left are keyed by
their new positions. -/
def Entry.rearrange (e : Entry) (gone : List Handle) (cs left : Forest Entry) : Forest Entry :=
  if e.data.type = .array ∧ ∃ h ∈ gone, h ∈ cs.rootHandles then Tree.renumbered left else left

/-- An entry under another key. -/
def Entry.withKey (e : Entry) (key : String) : Entry := { e with data := { e.data with key } }

namespace Forest

/-- The forest without the trees, at any depth, with these handles. -/
def takeOut (gone : List Handle) : Forest Entry → Forest Entry
  | .nil => .nil
  | .cons e cs ss =>
    if e.handle ∈ gone then ss.takeOut gone
    else .cons e (e.rearrange gone cs (cs.takeOut gone)) (ss.takeOut gone)

variable {f : Forest Entry} {gone more : List Handle} {h x : Handle} {r : Rose Entry} {e : Entry}

theorem rootHandles_sublist (f : Forest Entry) : f.rootHandles.Sublist f.handles :=
  (rootLabels_sublist_preorder f).map _

/-! ## Items keyed anew -/

@[simp] theorem rootHandles_renumbered (f : Forest Entry) :
    (Tree.renumbered f).rootHandles = f.rootHandles := by
  unfold rootHandles
  rw [Tree.rootLabels_renumbered]
  refine List.ext_getElem (by simp) fun i _ _ => ?_
  simp [Tree.atPosition]

@[simp] theorem handles_renumbered (f : Forest Entry) : (Tree.renumbered f).handles = f.handles :=
  handles_mapRoots (g := Tree.atPosition) (fun _ _ => rfl) f 0

@[simp] theorem rootHandles_rearrange (e : Entry) (gone : List Handle) (cs left : Forest Entry) :
    (e.rearrange gone cs left).rootHandles = left.rootHandles := by
  unfold Entry.rearrange
  split
  · exact rootHandles_renumbered left
  · rfl

@[simp] theorem handles_rearrange (e : Entry) (gone : List Handle) (cs left : Forest Entry) :
    (e.rearrange gone cs left).handles = left.handles := by
  unfold Entry.rearrange
  split
  · exact handles_renumbered left
  · rfl

/-- Where none of the trees is taken out, they keep their keys. -/
theorem rearrange_of_kept {cs : Forest Entry} (kept : ∀ h ∈ gone, h ∉ cs.rootHandles) (e : Entry)
    (left : Forest Entry) : e.rearrange gone cs left = left := by
  refine if_neg fun loses => ?_
  obtain ⟨-, h, lost, root⟩ := loses
  exact kept h lost root

theorem firstKeyed_rearrange (e : Entry) (gone : List Handle) (cs left : Forest Entry) :
    (e.rearrange gone cs left).firstKeyed (e.data.type == .array) =
      left.firstKeyed (e.data.type == .array) := by
  unfold Entry.rearrange
  split
  · rename_i array
    rw [array.1]
    exact firstKeyed_renumbered left
  · rfl

theorem find?_renumbered (f : Forest Entry) (x : Handle) :
    ((Tree.renumbered f).find? (·.handle == x)).map (·.children) =
      (f.find? (·.handle == x)).map (·.children) := by
  unfold Tree.renumbered
  generalize 0 = first
  induction f generalizing first with
  | nil => rfl
  | cons e cs ss _ ih =>
    rw [mapRoots, find?, find?]
    dsimp only
    split
    · rfl
    · cases cs.find? (·.handle == x) with
      | some r => rfl
      | none => exact ih (first + 1)

/-! ## What is left -/

theorem rootLabels_takeOut (gone : List Handle) (f : Forest Entry) :
    (f.takeOut gone).rootLabels = f.rootLabels.filter (·.handle ∉ gone) := by
  induction f with
  | nil => rfl
  | cons e cs ss _ ih =>
    rw [takeOut, rootLabels, List.filter_cons]
    split
    · rename_i lost
      rw [ih, if_neg (by simpa using lost)]
    · rename_i kept
      rw [rootLabels, ih, if_pos (by simpa using kept)]

@[simp] theorem rootHandles_takeOut (gone : List Handle) (f : Forest Entry) :
    (f.takeOut gone).rootHandles = f.rootHandles.filter (· ∉ gone) := by
  rw [rootHandles, rootLabels_takeOut, rootHandles, List.filter_map]
  rfl

theorem atPosition_mem_mapIdx {es : List Entry} (distinct : (es.map (·.handle)).Nodup)
    (he : e ∈ es) :
    Tree.atPosition ((es.map (·.handle)).idxOf e.handle) e ∈ es.mapIdx Tree.atPosition := by
  obtain ⟨i, hi, rfl⟩ := List.getElem_of_mem he
  have position := distinct.idxOf_getElem i (by simpa using hi)
  rw [List.getElem_map] at position
  rw [position]
  exact List.mem_mapIdx.2 ⟨i, hi, rfl⟩

/-- A child that stays keeps its data, but for the key of an item among items that are taken out. -/
theorem mem_rootLabels_rearrange {a : Entry} {cs : Forest Entry} (distinct : cs.handles.Nodup)
    (he : e ∈ cs.rootLabels) (stays : e.handle ∉ gone) :
    e.withKey (if a.data.type = .array ∧ ∃ h ∈ gone, h ∈ cs.rootHandles then
        itemKey ((cs.rootHandles.filter (· ∉ gone)).idxOf e.handle)
      else e.data.key) ∈ (a.rearrange gone cs (cs.takeOut gone)).rootLabels := by
  have inside : e ∈ (cs.takeOut gone).rootLabels := by
    rw [rootLabels_takeOut]
    exact List.mem_filter.2 ⟨he, by simpa using stays⟩
  unfold Entry.rearrange
  split
  · have left : (cs.takeOut gone).rootHandles.Nodup := by
      rw [rootHandles_takeOut]
      exact ((rootHandles_sublist cs).nodup distinct).filter _
    have moved := atPosition_mem_mapIdx left inside
    rw [← Tree.rootLabels_renumbered, ← rootHandles, rootHandles_takeOut] at moved
    exact moved
  · exact inside

theorem firstKeyed_takeOut (gone : List Handle) (items : Bool) (f : Forest Entry) :
    (f.takeOut gone).firstKeyed items = (f.firstKeyed items).prune (·.handle ∈ gone) := by
  induction f generalizing items with
  | nil => rfl
  | cons e cs ss ihc ihs =>
    rw [takeOut, firstKeyed, prune, handle_first]
    by_cases lost : e.handle ∈ gone
    · rw [if_pos lost, if_pos (by simpa using lost), ihs]
    · rw [if_neg lost, if_neg (by simpa using lost), firstKeyed, firstKeyed_rearrange, ihc, ihs]

theorem handles_takeOut_sublist (gone : List Handle) (f : Forest Entry) :
    (f.takeOut gone).handles.Sublist f.handles := by
  induction f with
  | nil => exact List.Sublist.refl _
  | cons e cs ss ihc ihs =>
    rw [takeOut, handles_cons]
    split
    · exact (ihs.trans (List.sublist_append_right _ _)).cons _
    · rw [handles_cons, handles_rearrange]
      exact (ihc.append ihs).cons_cons _

theorem takeOut_of_disjoint (none : ∀ h ∈ gone, h ∉ f.handles) : f.takeOut gone = f := by
  induction f with
  | nil => rfl
  | cons e cs ss ihc ihs =>
    simp only [handles_cons, List.mem_cons, List.mem_append, not_or] at none
    have kept : e.handle ∉ gone := fun inside => (none _ inside).1 rfl
    have below : ∀ h ∈ gone, h ∉ cs.rootHandles := fun h hh root =>
      (none h hh).2.1 ((rootHandles_sublist cs).subset root)
    rw [takeOut, if_neg kept, ihc fun h hh => (none h hh).2.1, ihs fun h hh => (none h hh).2.2,
      rearrange_of_kept below]

/-- The way to a node on which nothing is taken out leads to the node, with what is left below it. -/
theorem find?_takeOut {way : List Entry} (hw : f.trail? (·.handle == x) = some way)
    (clear : ∀ e ∈ way, e.handle ∉ gone) :
    ∃ r, f.find? (·.handle == x) = some r ∧
      ((f.takeOut gone).find? (·.handle == x)).map (·.children) =
        some (r.label.rearrange gone r.children (r.children.takeOut gone)) := by
  induction f generalizing way with
  | nil => cases hw
  | cons e cs ss ihc ihs =>
    rw [trail?] at hw
    rw [takeOut, find?]
    split at hw
    · rename_i here
      cases hw
      refine ⟨⟨e, cs⟩, if_pos here, ?_⟩
      rw [if_neg (clear e List.mem_cons_self), find?, if_pos here]
      rfl
    · rename_i other
      rw [if_neg other]
      rcases Option.or_eq_some_iff.1 hw with below | ⟨none, later⟩
      · obtain ⟨rest, hrest, rfl⟩ := Option.map_eq_some_iff.1 below
        rw [List.forall_mem_cons] at clear
        obtain ⟨r, hr, left⟩ := ihc hrest clear.2
        refine ⟨r, by rw [hr]; rfl, ?_⟩
        have children : ((e.rearrange gone cs (cs.takeOut gone)).find? (·.handle == x)).map
            (·.children) = ((cs.takeOut gone).find? (·.handle == x)).map (·.children) := by
          unfold Entry.rearrange
          split
          · exact find?_renumbered _ x
          · rfl
        rw [← children] at left
        obtain ⟨found, hfound, left⟩ := Option.map_eq_some_iff.1 left
        rw [if_neg clear.1, find?, if_neg other, hfound]
        exact congrArg some left
      · have missing := trail?_eq_none_iff.1 (Option.map_eq_none_iff.1 none)
        obtain ⟨r, hr, left⟩ := ihs later clear
        refine ⟨r, by rw [missing]; exact hr, ?_⟩
        split
        · exact left
        · have gone' : (e.rearrange gone cs (cs.takeOut gone)).find? (·.handle == x) = .none := by
            rw [find?_eq_none_iff_handles, handles_rearrange]
            exact fun inside => find?_eq_none_iff_handles.1 missing
              ((handles_takeOut_sublist gone cs).subset inside)
          rw [find?, if_neg other, gone']
          exact left

/-! ## One after the other -/

/-- Items that are keyed anew in the end may have any keys before. -/
theorem mapRoots_takeOut_mapRoots (gone : List Handle) (first second : Nat) (f : Forest Entry) :
    ((f.mapRoots Tree.atPosition first).takeOut gone).mapRoots Tree.atPosition second =
      (f.takeOut gone).mapRoots Tree.atPosition second := by
  induction f generalizing first second with
  | nil => rfl
  | cons e cs ss _ ih =>
    rw [mapRoots, takeOut, takeOut, show (Tree.atPosition first e).handle = e.handle from rfl]
    split
    · exact ih (first + 1) second
    · rw [mapRoots, mapRoots, ih]
      rfl

/-- Where no tree is taken out, those below are taken out before or after. -/
theorem takeOut_mapRoots (kept : ∀ h ∈ gone, h ∉ f.rootHandles) (first : Nat) :
    (f.mapRoots Tree.atPosition first).takeOut gone =
      (f.takeOut gone).mapRoots Tree.atPosition first := by
  induction f generalizing first with
  | nil => rfl
  | cons e cs ss _ ih =>
    simp only [rootHandles, rootLabels, List.map_cons, List.mem_cons, not_or] at kept
    have stays : e.handle ∉ gone := fun inside => (kept _ inside).1 rfl
    rw [mapRoots, takeOut, takeOut, show (Tree.atPosition first e).handle = e.handle from rfl,
      if_neg stays, if_neg stays, mapRoots, ih fun h hh => (kept h hh).2]
    rfl

theorem rearrange_rearrange (e : Entry) (gone more : List Handle) (cs : Forest Entry) :
    e.rearrange more (e.rearrange gone cs (cs.takeOut gone))
        ((e.rearrange gone cs (cs.takeOut gone)).takeOut more) =
      e.rearrange (gone ++ more) cs ((cs.takeOut gone).takeOut more) := by
  have loses : (∃ h ∈ gone ++ more, h ∈ cs.rootHandles) ↔
      (∃ h ∈ gone, h ∈ cs.rootHandles) ∨ ∃ h ∈ more, h ∈ (cs.takeOut gone).rootHandles := by
    rw [rootHandles_takeOut]
    simp only [List.mem_append, List.mem_filter, decide_eq_true_eq]
    constructor
    · rintro ⟨h, inside, root⟩
      by_cases hg : h ∈ gone
      · exact Or.inl ⟨h, hg, root⟩
      · exact Or.inr ⟨h, inside.resolve_left hg, root, hg⟩
    · rintro (⟨h, inside, root⟩ | ⟨h, inside, root, -⟩)
      · exact ⟨h, Or.inl inside, root⟩
      · exact ⟨h, Or.inr inside, root⟩
  rw [Entry.rearrange, rootHandles_rearrange]
  by_cases array : e.data.type = .array
  · simp only [Entry.rearrange, array, true_and, loses]
    by_cases first : ∃ h ∈ gone, h ∈ cs.rootHandles
    · rw [if_pos first, if_pos (Or.inl first)]
      split
      · exact mapRoots_takeOut_mapRoots more 0 0 _
      · rename_i kept
        exact takeOut_mapRoots (fun h hh root => kept ⟨h, hh, root⟩) 0
    · simp only [first, if_false, false_or]
  · simp only [Entry.rearrange, array, false_and, if_false]

/-- Subtrees taken out one after the other are taken out together. -/
theorem takeOut_takeOut (gone more : List Handle) (f : Forest Entry) :
    (f.takeOut gone).takeOut more = f.takeOut (gone ++ more) := by
  induction f with
  | nil => rfl
  | cons e cs ss ihc ihs =>
    rw [takeOut, takeOut, ← ihc, ← ihs, ← rearrange_rearrange]
    by_cases first : e.handle ∈ gone
    · rw [if_pos first, if_pos (List.mem_append_left _ first)]
    · rw [if_neg first, takeOut]
      simp only [List.mem_append, first, false_or]

/-! ## Other changes -/

section Map

variable {g : Entry → Entry} (handle : ∀ e, (g e).handle = e.handle)
  (type : ∀ e, (g e).data.type = e.data.type)
  (withKey : ∀ e key, g (e.withKey key) = (g e).withKey key)

include handle

theorem rootHandles_map (f : Forest Entry) : (f.map g).rootHandles = f.rootHandles := by
  rw [rootHandles, rootLabels_map, List.map_map]
  exact List.map_congr_left fun e _ => handle e

include type withKey

theorem rearrange_map (e : Entry) (gone : List Handle) (cs left : Forest Entry) :
    (g e).rearrange gone (cs.map g) (left.map g) = (e.rearrange gone cs left).map g := by
  have renumbered : ∀ first, (left.map g).mapRoots Tree.atPosition first =
      (left.mapRoots Tree.atPosition first).map g := by
    induction left with
    | nil => exact fun _ => rfl
    | cons e cs ss _ ih =>
      intro first
      rw [map, mapRoots, mapRoots, map, ih]
      exact congrArg (cons · _ _) (withKey e _).symm
  rw [Entry.rearrange, Entry.rearrange, rootHandles_map handle, type]
  split
  · exact renumbered 0
  · rfl

theorem takeOut_map (gone : List Handle) (f : Forest Entry) :
    (f.map g).takeOut gone = (f.takeOut gone).map g := by
  induction f with
  | nil => rfl
  | cons e cs ss ihc ihs =>
    rw [map, takeOut, takeOut, ihc, ihs, rearrange_map handle type withKey, handle]
    split <;> rfl

end Map

/-! ## Removed nodes -/

/-- Taken from among the trees. -/
theorem takeOut_of_mem_rootLabels (distinct : f.handles.Nodup) (he : e ∈ f.rootLabels) :
    f.takeOut [e.handle] = f.filterRoots (·.handle != e.handle) := by
  induction f with
  | nil => cases he
  | cons a cs ss _ ihs =>
    obtain ⟨outside, -, dss, apart⟩ := nodup_handles_cons.1 distinct
    rw [takeOut, filterRoots]
    rcases List.mem_cons.1 he with rfl | he
    · have others : ss.filterRoots (·.handle != e.handle) = ss := by
        refine filterRoots_eq_self fun r hr => ?_
        have inside : r.label.handle ∈ ss.handles :=
          mem_handles_of_mem_subtrees (mem_subtrees_of_mem_roots hr (Or.inl rfl))
        have other : r.label.handle ≠ e.handle := fun same => outside.2 (same ▸ inside)
        simpa using other
      rw [if_pos (List.mem_singleton_self _), if_neg (by simp), others,
        takeOut_of_disjoint (by simpa using outside.2)]
    · have inside : e.handle ∈ ss.handles :=
        List.mem_map_of_mem (mem_preorder_of_mem_rootLabels he)
      have other : a.handle ≠ e.handle := fun same => outside.2 (same ▸ inside)
      have missing : ∀ h ∈ [e.handle], h ∉ cs.handles := by
        simpa using fun below => apart below inside
      rw [if_neg (by simpa using other), if_pos (by simpa using other), ihs dss he,
        takeOut_of_disjoint missing, rearrange_of_kept fun h hh root =>
          missing h hh ((rootHandles_sublist cs).subset root)]

/-- A child is none of the trees. -/
theorem not_mem_rootHandles_of_child (distinct : f.handles.Nodup) (hr : r ∈ f.subtrees)
    (he : e ∈ r.children.rootLabels) : e.handle ∉ f.rootHandles := by
  intro root
  obtain ⟨e', he', same⟩ := List.mem_map.1 root
  obtain ⟨way, long⟩ := trail?_of_mem_children distinct hr he
  have short := trail?_of_mem_rootLabels distinct he'
  rw [same, long] at short
  have lengths := congrArg List.length (Option.some.inj short)
  simp at lengths

/-- Taken from among the children of a node. -/
theorem adjust_filterRoots_eq_takeOut (distinct : f.handles.Nodup) (hr : r ∈ f.subtrees)
    (he : e ∈ r.children.rootLabels) :
    f.adjust (·.handle == r.label.handle) (fun cs =>
        if r.label.data.type == .array then Tree.renumbered (cs.filterRoots (·.handle != e.handle))
        else cs.filterRoots (·.handle != e.handle)) =
      f.takeOut [e.handle] := by
  induction f with
  | nil => cases hr
  | cons a cs ss ihc ihs =>
    obtain ⟨outside, dcs, dss, apart⟩ := nodup_handles_cons.1 distinct
    have elsewhere : ∀ {g : Forest Entry}, e.handle ∉ g.handles → g.takeOut [e.handle] = g :=
      fun missing => takeOut_of_disjoint (by simpa using missing)
    rw [subtrees, List.mem_cons, List.mem_append] at hr
    rw [adjust, takeOut]
    rcases hr with rfl | hr | hr
    · have inside : e.handle ∈ cs.handles :=
        List.mem_map_of_mem (mem_preorder_of_mem_rootLabels he)
      have other : a.handle ≠ e.handle := fun same => outside.1 (same ▸ inside)
      have loses : ∃ h ∈ [e.handle], h ∈ cs.rootHandles :=
        ⟨_, List.mem_singleton_self _, List.mem_map_of_mem he⟩
      rw [if_pos (beq_self_eq_true _), if_neg (show a.handle ∉ [e.handle] by simpa using other),
        adjust_of_find?_eq_none (find?_eq_none_iff_handles.2 outside.2),
        elsewhere fun later => apart inside later, takeOut_of_mem_rootLabels dcs he, Entry.rearrange]
      simp only [and_iff_left loses, beq_iff_eq]
    · have there := mem_handles_of_mem_subtrees hr
      have inside := mem_handles_of_mem_children hr he
      have other : a.handle ≠ e.handle := fun same => outside.1 (same ▸ inside)
      have deeper : ∀ h ∈ [e.handle], h ∉ cs.rootHandles := by
        simpa using not_mem_rootHandles_of_child dcs hr he
      rw [if_neg (not_beq_of_not_mem outside.1 there), if_neg (by simpa using other), ihc dcs hr,
        rearrange_of_kept deeper, elsewhere fun later => apart inside later,
        adjust_of_find?_eq_none (find?_eq_none_iff_handles.2 fun later => apart there later)]
    · have there := mem_handles_of_mem_subtrees hr
      have inside := mem_handles_of_mem_children hr he
      have other : a.handle ≠ e.handle := fun same => outside.2 (same ▸ inside)
      have missing : e.handle ∉ cs.handles := fun below => apart below inside
      have kept : ∀ h ∈ [e.handle], h ∉ cs.rootHandles := by
        simpa using fun root => missing ((rootHandles_sublist cs).subset root)
      rw [if_neg (not_beq_of_not_mem outside.2 there), if_neg (by simpa using other), ihs dss hr,
        elsewhere missing, rearrange_of_kept kept,
        adjust_of_find?_eq_none (find?_eq_none_iff_handles.2 fun below => apart below there)]

end Forest

namespace Tree

variable {t t' : Tree} {gone more : List Handle} {h x : Handle}

/-- The tree without the subtrees at these handles. The root stays. -/
def takeOut (t : Tree) (gone : List Handle) : Tree :=
  { t with top :=
      ⟨t.top.label, t.top.label.rearrange gone t.top.children (t.top.children.takeOut gone)⟩ }

theorem forest_takeOut (below : t.root ∉ gone) : (t.takeOut gone).forest = t.forest.takeOut gone :=
  (if_neg below).symm

theorem takeOut_nil (t : Tree) : t.takeOut [] = t := by
  refine ext_forest ?_ rfl rfl
  rw [forest_takeOut List.not_mem_nil, Forest.takeOut_of_disjoint (by simp)]

theorem takeOut_takeOut (below : t.root ∉ gone) (below' : t.root ∉ more) :
    (t.takeOut gone).takeOut more = t.takeOut (gone ++ more) := by
  refine ext_forest ?_ rfl rfl
  rw [forest_takeOut (show (t.takeOut gone).root ∉ more from below'), forest_takeOut below,
    Forest.takeOut_takeOut, forest_takeOut (by simpa using ⟨below, below'⟩)]

theorem Sound.takeOut (ht : t.Sound) (below : t.root ∉ gone) : (t.takeOut gone).Sound := by
  refine ht.of_sublist ?_ rfl
  rw [forest_takeOut below]
  exact Forest.handles_takeOut_sublist gone t.forest

theorem firstKeyed_takeOut (below : t.root ∉ gone) :
    (t.takeOut gone).firstKeyed = t.firstKeyed.prune (·.handle ∈ gone) := by
  rw [firstKeyed, forest_takeOut below, Forest.firstKeyed_takeOut, firstKeyed]

/-! ## Nodes removed -/

/-- A node removed is a subtree taken out. -/
theorem Sound.remove_eq_takeOut (ht : t.Sound) (below : h ≠ t.root) :
    (t.remove h).1 = t.takeOut [h] := by
  have stays : t.root ∉ [h] := by simpa using below.symm
  unfold Tree.remove
  split
  · rename_i p hp
    obtain ⟨r, hr, e, he, rfl⟩ := mem_children_iff.1 (ht.parent?_eq_some_iff.1 hp)
    obtain rfl := find?_handle hr
    refine ext_forest ?_ rfl rfl
    rw [forest_takeOut stays, ← Forest.adjust_filterRoots_eq_takeOut ht.distinct (find?_mem hr) he,
      ← isArray_of_find? hr]
    rfl
  · rename_i none
    refine ext_forest ?_ rfl rfl
    rw [forest_takeOut stays, Forest.takeOut_of_disjoint]
    intro h' same inside
    rw [List.mem_singleton.1 same] at inside
    obtain ⟨p, hp⟩ := ht.exists_parent inside below
    rw [hp] at none
    cases none

/-- Nodes removed one after the other are subtrees taken out. -/
theorem Sound.removeAll_eq_takeOut (ht : t.Sound) {hs : List Handle} (below : t.root ∉ hs) :
    hs.foldl (fun t h => (t.remove h).1) t = t.takeOut hs := by
  induction hs generalizing t with
  | nil => exact (takeOut_nil t).symm
  | cons h hs ih =>
    rw [List.mem_cons, not_or] at below
    have first : t.root ∉ [h] := by simpa using below.1
    rw [List.foldl_cons, ht.remove_eq_takeOut (Ne.symm below.1), ih (ht.takeOut first) below.2,
      takeOut_takeOut first below.2]
    rfl

/-- Overrides removed are subtrees taken out. -/
theorem Sound.removeOverrides_eq_takeOut (ht : t.Sound) (path : List String) :
    (t.removeOverrides path).1 = t.takeOut (t.overrides path) :=
  ht.removeAll_eq_takeOut (ht.root_not_mem_overrides path)

/-! ## What becomes of the nodes -/

/-- The key of a node when the subtrees at `gone` are taken out: an item of an array that loses items
has its new position for a key. -/
def keyWithout (t : Tree) (gone : List Handle) (x : Handle) (key : String) : String :=
  match t.parent? x with
  | some p =>
    if t.isArray p ∧ ∃ h ∈ gone, h ∈ t.children p then
      itemKey (((t.children p).filter (· ∉ gone)).idxOf x)
    else key
  | none => key

/-- `t'` is `t` without the subtrees at `gone`, and with the data of the nodes left changed by `f`. -/
structure TakenOut (gone : List Handle) (f : NodeData → NodeData) (t t' : Tree) : Prop where
  kind : t'.kind = t.kind
  next : t'.next = t.next
  root : t'.root = t.root
  contains : ∀ x, t'.contains x ↔ t.contains x ∧ ¬∃ h ∈ gone, t.Under h x
  parent : ∀ x, t'.contains x → t'.parent? x = t.parent? x
  children : ∀ x, t'.contains x → t'.children x = (t.children x).filter (· ∉ gone)
  data : ∀ x, t'.contains x →
    t'.data? x = (t.data? x).map fun d => f { d with key := t.keyWithout gone x d.key }

theorem mem_entries_of_contains (there : t.contains x) : x ∈ t.entries.map (·.handle) := by
  rw [contains_iff, Forest.mem_handles] at there
  obtain ⟨e, he, rfl⟩ := there
  exact List.mem_map_of_mem (mem_entries_iff.2 he)

theorem parent?_eq (t : Tree) (x : Handle) :
    t.parent? x = ((t.trail x).map (·.handle)).dropLast.getLast? := by
  rw [parent?, ← List.map_dropLast, List.getLast?_map]

theorem Sound.under_self (ht : t.Sound) (there : t.contains x) : t.Under x x := by
  obtain ⟨e, he, rfl⟩ := List.mem_map.1 (mem_entries_of_contains there)
  exact List.mem_map_of_mem (List.mem_of_getLast? (ht.mem_trails_iff.2 ⟨he, rfl⟩).2)

theorem Sound.keyWithout_of_child (ht : t.Sound) {r : Rose Entry} (hr : t.find? h = some r)
    {e : Entry} (he : e ∈ r.children.rootLabels) (gone : List Handle) (key : String) :
    t.keyWithout gone e.handle key =
      if r.label.data.type = .array ∧ ∃ h ∈ gone, h ∈ r.children.rootHandles then
        itemKey ((r.children.rootHandles.filter (· ∉ gone)).idxOf e.handle)
      else key := by
  have parent : t.parent? e.handle = some h := find?_handle hr ▸ ht.parent?_of_child (find?_mem hr) he
  have children : t.children h = r.children.rootHandles := by
    rw [Tree.children, below_of_find? hr]
    rfl
  unfold keyWithout
  rw [parent]
  simp only [isArray_of_find? hr, beq_iff_eq, children]

section TakeOut

variable (ht : t.Sound) (below : t.root ∉ gone)

include ht below

theorem Sound.contains_takeOut (x : Handle) :
    (t.takeOut gone).contains x ↔ t.contains x ∧ ¬∃ h ∈ gone, t.Under h x := by
  have named : ∀ u : Tree, u.contains x ↔ (u.data? x).map (fun _ => ()) = some () := by
    intro u
    rw [Tree.contains, Tree.data?]
    cases u.find? x <;> simp
  rw [named, named]
  exact ht.map_data?_of_prune (ht.takeOut below) (firstKeyed_takeOut below) fun _ _ => rfl

theorem Sound.trail_takeOut (there : (t.takeOut gone).contains x) :
    ((t.takeOut gone).trail x).map (·.handle) = (t.trail x).map (·.handle) := by
  have way := (ht.way_of_prune (ht.takeOut below) (firstKeyed_takeOut below)
    (mem_entries_of_contains there)).2.1
  rw [← map_handle_firstKeyedWay false, ← way, map_handle_firstKeyedWay]

theorem Sound.below_takeOut (there : (t.takeOut gone).contains x) :
    ∃ r, t.find? x = some r ∧ (t.takeOut gone).below x =
      r.label.rearrange gone r.children (r.children.takeOut gone) := by
  obtain ⟨before, kept⟩ := (ht.contains_takeOut below x).1 there
  obtain ⟨e, he, rfl⟩ := List.mem_map.1 (mem_entries_of_contains before)
  obtain ⟨inside, last⟩ := ht.mem_trails_iff.2 ⟨he, rfl⟩
  have clear : ∀ a ∈ t.trail e.handle, a.handle ∉ gone := fun a ha lost =>
    kept ⟨_, lost, List.mem_map_of_mem ha⟩
  obtain ⟨r, hr, left⟩ :=
    Forest.find?_takeOut (Forest.trail?_of_mem_trails ht.distinct inside last) clear
  refine ⟨r, hr, ?_⟩
  rw [← forest_takeOut below] at left
  obtain ⟨r', hr', children⟩ := Option.map_eq_some_iff.1 left
  rw [below_of_find? hr', children]

theorem Sound.children_takeOut (there : (t.takeOut gone).contains x) :
    (t.takeOut gone).children x = (t.children x).filter (· ∉ gone) := by
  obtain ⟨r, hr, left⟩ := ht.below_takeOut below there
  show ((t.takeOut gone).below x).rootHandles = _
  rw [left, Forest.rootHandles_rearrange, Forest.rootHandles_takeOut, Tree.children,
    below_of_find? hr]
  rfl

theorem Sound.parent?_takeOut (there : (t.takeOut gone).contains x) :
    (t.takeOut gone).parent? x = t.parent? x := by
  rw [parent?_eq, parent?_eq, ht.trail_takeOut below there]

/-- An item of an array that loses items is keyed by its new position; other nodes keep their data. -/
theorem Sound.data?_takeOut (there : (t.takeOut gone).contains x) :
    (t.takeOut gone).data? x =
      (t.data? x).map fun d => { d with key := t.keyWithout gone x d.key } := by
  obtain ⟨before, kept⟩ := (ht.contains_takeOut below x).1 there
  by_cases top : x = t.root
  · subst top
    have same : ∀ u : Tree, u.data? u.root = some u.top.label.data := fun u => by
      rw [Tree.data?, find?_root, Option.map_some]
    rw [same t, show (t.takeOut gone).data? t.root = some t.top.label.data from
      same (t.takeOut gone), Option.map_some, keyWithout, t.parent?_root]
  · obtain ⟨p, hp⟩ := ht.exists_parent (contains_iff.1 before) top
    obtain ⟨r, hr, e, he, rfl⟩ := mem_children_iff.1 (ht.parent?_eq_some_iff.1 hp)
    obtain ⟨s, hs, rfl⟩ : ∃ s ∈ r.children.roots, s.label = e := by
      rwa [Forest.rootLabels_eq_map_roots, List.mem_map] at he
    have above : ∀ h, t.Under h p → t.Under h s.label.handle := fun h under => by
      unfold Under at under ⊢
      rw [(ht.trail_child (find?_mem hr) hs).2, find?_handle hr, List.map_append]
      exact List.mem_append_left _ under
    have parentThere : (t.takeOut gone).contains p :=
      (ht.contains_takeOut below p).2 ⟨contains_of_find? hr, by
        rintro ⟨h, hh, under⟩
        exact kept ⟨h, hh, above h under⟩⟩
    obtain ⟨r', hr', left⟩ := ht.below_takeOut below parentThere
    obtain rfl : r = r' := Option.some.inj (hr.symm.trans hr')
    obtain ⟨q, hq⟩ := Option.isSome_iff_exists.1 parentThere
    rw [below_of_find? hq] at left
    have distinct : r.children.handles.Nodup :=
      (Forest.nodup_handles_cons.1 (Forest.nodup_handles_of_mem_subtrees ht.distinct (find?_mem hr))).2.1
    have stays : s.label.handle ∉ gone := fun lost => kept ⟨_, lost, ht.under_self before⟩
    have moved := Forest.mem_rootLabels_rearrange (a := r.label) distinct he stays
    rw [← left, ← ht.keyWithout_of_child hr he] at moved
    rw [ht.data?_of_child (find?_mem hr) he, Option.map_some]
    exact (ht.takeOut below).data?_of_child (find?_mem hq) moved

end TakeOut

/-- Taking out subtrees does to the other nodes what it says and nothing else. -/
theorem Sound.takenOut (ht : t.Sound) (below : t.root ∉ gone) :
    TakenOut gone id t (t.takeOut gone) where
  kind := rfl
  next := rfl
  root := rfl
  contains := ht.contains_takeOut below
  parent _ := ht.parent?_takeOut below
  children _ := ht.children_takeOut below
  data _ := ht.data?_takeOut below

/-! ## Data changed as well -/

theorem find?_modifyAll (t : Tree) (f : NodeData → NodeData) (x : Handle) :
    (t.modifyAll f).find? x = (t.find? x).map (Rose.map fun e => { e with data := f e.data }) :=
  Forest.find?_map (fun e : Entry => ({ e with data := f e.data } : Entry)) (fun _ => rfl) t.forest

theorem children_modifyAll (t : Tree) (f : NodeData → NodeData) (x : Handle) :
    (t.modifyAll f).children x = t.children x := by
  unfold Tree.children Tree.below
  rw [find?_modifyAll]
  cases t.find? x with
  | none => rfl
  | some r =>
    dsimp only [Option.map_some, Rose.map]
    rw [Forest.rootLabels_map, List.map_map]
    rfl

theorem TakenOut.modifyAll {f : NodeData → NodeData} (h : TakenOut gone f t t')
    (g : NodeData → NodeData) : TakenOut gone (g ∘ f) t (t'.modifyAll g) := by
  have contains : ∀ x, (t'.modifyAll g).contains x = t'.contains x := fun x => by
    rw [Tree.contains, find?_modifyAll, Option.isSome_map, Tree.contains]
  have trail : ∀ x, ((t'.modifyAll g).trail x).map (·.handle) = (t'.trail x).map (·.handle) :=
    fun x => by
      rw [Tree.modifyAll, trail_map (g := fun e => { e with data := g e.data }) fun _ => rfl,
        List.map_map]
      rfl
  refine ⟨h.kind, h.next, h.root, fun x => ?_, fun x there => ?_, fun x there => ?_,
    fun x there => ?_⟩
  · rw [contains, h.contains]
  · rw [parent?_eq, trail, ← parent?_eq, h.parent x (contains x ▸ there)]
  · rw [children_modifyAll, h.children x (contains x ▸ there)]
  · rw [data?_modifyAll, h.data x (contains x ▸ there), Option.map_map]
    rfl

/-- Data that are changed without a look at the keys may be changed before or after. -/
theorem takeOut_modifyAll {f : NodeData → NodeData} (type : ∀ d, (f d).type = d.type)
    (key : ∀ d key, f { d with key } = { f d with key }) (t : Tree) (gone : List Handle) :
    (t.modifyAll f).takeOut gone = (t.takeOut gone).modifyAll f := by
  let g : Entry → Entry := fun e => { e with data := f e.data }
  have withKey : ∀ e key, g (e.withKey key) = (g e).withKey key := fun e k =>
    congrArg (Entry.mk e.handle) (key e.data k)
  have children : (t.top.children.map g).takeOut gone = (t.top.children.takeOut gone).map g :=
    Forest.takeOut_map (g := g) (fun _ => rfl) (fun e => type e.data) withKey gone _
  have rearranged := Forest.rearrange_map (g := g) (fun _ => rfl) (fun e => type e.data) withKey
    t.top.label gone t.top.children (t.top.children.takeOut gone)
  rw [← children] at rearranged
  exact congrArg (fun cs => ({ t with top := ⟨g t.top.label, cs⟩ } : Tree)) rearranged

end Tree

end LayeredConfig
