import LayeredConfig.Proofs.Tree.LocalPaths

/-!
# Items keyed by their positions

A tree is numbered when the items of every array are keyed `[0]`, `[1]`, … in order. It stays so when
nodes are taken away, since the items left are keyed anew (`Numbered.remove`), and when a new item gets
the next position (`Numbered.graft_leaf`). Two changes look at no position: data written over a node,
which becomes an array of whatever stands below it (`numbered_write_iff`), and overrides renamed, which
may be items (`numbered_keyedAs_iff`).
-/

namespace LayeredConfig.Tree

variable {t t' : Tree} {h parent : Handle} {d : NodeData} {new : NodeData} {key : String}

/-- An array has its items keyed by their positions. -/
def Positioned (e : Entry) (es : List Entry) : Prop :=
  e.data.type = .array → es.map (·.data.key) = (List.range es.length).map itemKey

/-- The children of a node are keyed by their positions. -/
def InPositions (t : Tree) (h : Handle) : Prop :=
  (t.below h).rootLabels.map (·.data.key) = (List.range (t.below h).rootLabels.length).map itemKey

instance (t : Tree) (h : Handle) : Decidable (t.InPositions h) :=
  inferInstanceAs (Decidable ((t.below h).rootLabels.map (·.data.key) =
    (List.range (t.below h).rootLabels.length).map itemKey))

theorem numbered_iff : t.Numbered ↔ t.forest.Everywhere (Shallow Positioned) := by
  rw [Numbered, Rose.everywhere_iff_ofRose]
  simp only [Forest.rootKeys_eq_map_rootLabels]
  refine forall₂_congr fun r _ => ?_
  unfold Shallow Positioned
  beta_reduce
  rw [Forest.rootLabels_eq_map_roots, List.length_map]

theorem Numbered.inPositions (hn : t.Numbered) (hd : t.data? h = some d) (array : d.type = .array) :
    t.InPositions h := by
  obtain ⟨r, hr, rfl⟩ := Option.map_eq_some_iff.1 hd
  unfold InPositions
  rw [below_of_find? hr]
  exact numbered_iff.1 hn r (find?_mem hr) array

/-- Positions are a matter of keys and types. -/
theorem SameWays.numbered_iff (same : t.SameWays t') : t'.Numbered ↔ t.Numbered := by
  have bare : ∀ u : Tree, u.Numbered ↔
      ({ u with top := u.top.map Entry.bare } : Tree).Numbered := by
    intro u
    rw [Tree.numbered_iff, Tree.numbered_iff, everywhere_map_iff]
    refine forall₂_congr fun r _ => ?_
    unfold Shallow Positioned
    beta_reduce
    rw [List.map_map, List.length_map]
    rfl
  rw [bare t', bare t]
  unfold Numbered
  rw [show t'.top.map Entry.bare = _ from same]

/-! ## Nodes taken away and new nodes -/

theorem Numbered.clear (hn : t.Numbered) (h : Handle) : (t.clear h).Numbered :=
  numbered_iff.2 ((everywhere_clear (numbered_iff.1 hn) (fun _ _ _ _ => rfl) h).mono fun _ hr => hr.1)

theorem Numbered.remove (hn : t.Numbered) (ht : t.Sound) (h : Handle) : (t.remove h).1.Numbered := by
  unfold Tree.remove
  split
  · rename_i above _
    refine numbered_iff.2 (everywhere_keepChildren (numbered_iff.1 hn) (fun _ _ _ fits => fits) ?_)
    intro r hr same array
    have renumbers : t.isArray above := by
      rw [← same, isArray_of_find? (ht.find?_of_mem hr), array]
      rfl
    rw [if_pos renumbers, map_key_atPosition, List.length_mapIdx]
  · exact hn

/-- A childless node is added, below an array under the next position. -/
theorem Numbered.graft_leaf (hn : t.Numbered) (ht : t.Sound) (hd : t.data? parent = some d)
    (next : d.type = .array → new.key = itemKey (t.children parent).length) :
    (t.graft parent ⟨new, .nil⟩).1.Numbered := by
  have fits := numbered_iff.1 hn
  show (t.graftAll parent (.ofRose ⟨new, .nil⟩)).1.Numbered
  refine numbered_iff.2 (everywhere_graftAll fits ?_ fun r hr same array => ?_)
  · exact Forest.everywhere_cons.2 ⟨fun _ => rfl, Forest.everywhere_nil, Forest.everywhere_nil⟩
  · have named := ht.find?_of_mem hr
    rw [same] at named
    obtain rfl : r.label.data = d := by
      rw [data?, named] at hd
      exact Option.some.inj hd
    have position := next array
    unfold children at position
    rw [below_of_find? named, List.length_map] at position
    show (r.children.rootLabels ++ [(⟨t.next, new⟩ : Entry)]).map (·.data.key) =
      (List.range (r.children.rootLabels ++ [(⟨t.next, new⟩ : Entry)]).length).map itemKey
    rw [List.map_append, fits r hr array, List.length_append, List.length_singleton, List.range_succ,
      List.map_append, List.map_singleton, position, List.map_singleton]

/-! ## Data written over a node -/

/-- The items are the children of arrays. -/
theorem Sound.isItem_iff (ht : t.Sound) {r : Rose Entry} (hr : r ∈ t.forest.subtrees) {e : Entry}
    (he : e ∈ r.children.rootLabels) : t.isItem e.handle ↔ r.label.data.type = .array := by
  rw [isItem, ht.parent?_of_child hr he]
  show t.isArray r.label.handle ↔ _
  rw [isArray_of_find? (ht.find?_of_mem hr), beq_iff_eq]

/-- The keys of the items of an array, and of the children of the node itself, are not touched. -/
theorem Sound.map_key_written (ht : t.Sound) (hd : t.data? h = some d)
    (item : t.isItem h → new.key = d.key) {r : Rose Entry} (hr : r ∈ t.forest.subtrees)
    (apart : r.label.handle = h ∨ r.label.data.type = .array) :
    (r.children.rootLabels.map (written h new)).map (·.data.key) =
      r.children.rootLabels.map (·.data.key) := by
  rw [List.map_map]
  refine List.map_congr_left fun e he => ?_
  rw [Function.comp_apply]
  by_cases here : e.handle = h
  · rcases apart with top | array
    · have outside : r.label.handle ∉ r.children.handles :=
        (Forest.nodup_handles_cons.1 (Forest.nodup_handles_of_mem_subtrees ht.distinct hr)).1.1
      rw [top, ← here] at outside
      exact absurd (List.mem_map_of_mem (Forest.mem_preorder_of_mem_rootLabels he)) outside
    · have known := ht.data?_of_child hr he
      rw [here, hd] at known
      rw [written_self here, item (here ▸ (ht.isItem_iff hr he).2 array), Option.some.inj known]
  · rw [written_of_ne here]

/-- Data written over a node keep the items numbered iff they do not make an array of a node whose
children are not in their positions. An item keeps its key. -/
theorem numbered_write_iff (ht : t.Sound) (hn : t.Numbered) (hd : t.data? h = some d)
    (item : t.isItem h → new.key = d.key) :
    (t.modify h fun _ => new).Numbered ↔ (new.type = .array → t.InPositions h) := by
  have keys := fun r hr => ht.map_key_written (r := r) hd item hr
  rw [numbered_iff, everywhere_modify_iff]
  constructor
  · intro all array
    obtain ⟨r, hr, -⟩ := Option.map_eq_some_iff.1 hd
    have top := find?_handle hr
    have fits : Positioned (written h new r.label) (r.children.rootLabels.map (written h new)) :=
      all r (find?_mem hr)
    have positions := fits (by rw [written_self top, array])
    rw [keys r (find?_mem hr) (Or.inl top), List.length_map] at positions
    unfold InPositions
    rwa [below_of_find? hr]
  · intro fits r hr
    show Positioned (written h new r.label) (r.children.rootLabels.map (written h new))
    intro array
    rw [List.length_map]
    by_cases top : r.label.handle = h
    · rw [written_self top] at array
      have positions := fits array
      rw [InPositions, below_of_find? (top ▸ ht.find?_of_mem hr)] at positions
      rw [keys r hr (Or.inl top), positions]
    · rw [written_of_ne top] at array
      rw [keys r hr (Or.inr array), numbered_iff.1 hn r hr array]

/-! ## Overrides under a new key -/

/-- Nodes get a key that none of the items among them has: the items stay numbered iff there are none
among them. -/
theorem numbered_keyedAs_iff (ht : t.Sound) (hn : t.Numbered) {os : List Handle}
    (other : ∀ o ∈ os, t.isItem o → t.key? o ≠ some key) :
    ({ t with top := t.top.map (keyedAs os key) } : Tree).Numbered ↔ ∀ o ∈ os, ¬t.isItem o := by
  have fits := numbered_iff.1 hn
  rw [numbered_iff, everywhere_map_iff]
  constructor
  · intro all o ho item
    obtain ⟨p, above, -⟩ : ∃ p, t.parent? o = some p ∧ t.isArray p := by
      unfold isItem at item
      split at item
      · exact ⟨_, ‹_›, item⟩
      · cases item
    obtain ⟨r, hr, e, he, rfl⟩ := mem_children_iff.1 (ht.parent?_eq_some_iff.1 above)
    have inside := find?_mem hr
    have array := (ht.isItem_iff inside he).1 item
    have after : Positioned (keyedAs os key r.label) (r.children.rootLabels.map (keyedAs os key)) :=
      all r inside
    have keys := after (by rw [type_keyedAs, array])
    rw [List.length_map, ← fits r inside array, List.map_map] at keys
    have same : (keyedAs os key e).data.key = e.data.key := List.map_inj_left.1 keys e he
    rw [keyedAs, if_pos ho] at same
    refine other _ ho item ?_
    rw [key?, ht.data?_of_child inside he]
    exact congrArg some same.symm
  · intro none r hr
    show Positioned (keyedAs os key r.label) (r.children.rootLabels.map (keyedAs os key))
    intro array
    rw [type_keyedAs] at array
    have untouched : r.children.rootLabels.map (keyedAs os key) = r.children.rootLabels :=
      map_keyedAs key fun e he ho => none _ ho ((ht.isItem_iff hr he).2 array)
    rw [untouched]
    exact fits r hr array

/-- In a numbered tree an override bears the last key of its path: the first item of an array is keyed
by its position. -/
theorem Numbered.key_of_override (hn : t.Numbered) (ht : t.Sound) {path : List String} {o : Handle}
    (ho : o ∈ t.overrides (path ++ [key])) : t.key? o = some key := by
  obtain ⟨z, inside, x, step, rfl⟩ := exists_step_of_mem_overrides ho
  have known := ht.data?_of_mem (Forest.mem_preorder_of_mem_subtrees (mem_subtrees_of_step inside step)
    List.mem_cons_self)
  rw [key?, known, Option.map_some]
  unfold stepAligned at step
  split at step
  · rename_i first
    have keys := numbered_iff.1 hn z inside first.2
    rw [Forest.rootLabels_eq_map_roots] at keys
    cases items : z.children.roots with
    | nil =>
      rw [items] at step
      cases step
    | cons y rest =>
      rw [items] at step keys
      cases step
      have head := congrArg List.head? keys
      rw [List.length_map, List.length_cons, List.range_succ_eq_map] at head
      rw [first.1]
      exact head
  · rw [key_of_findRoot? step]

end LayeredConfig.Tree
