import LayeredConfig.Alignment
import LayeredConfig.Proofs.Compile.Layers
import LayeredConfig.Proofs.Tree.Shallow

/-!
# Sibling keys through the changes of a tree

Whether sibling keys are distinct depends on which keys stand where, so whatever changes other data
only leaves it as it is (`SameKeys`). Nodes taken away leave distinct keys distinct, the items of an
array are numbered anew (`UniqueKeys.keepChildren`), and a new node or a new name keeps them
distinct iff no sibling bears that key (`uniqueKeys_graft_iff`, `uniqueKeys_rename_iff`).
-/

namespace LayeredConfig

theorem itemKey_injective : Function.Injective itemKey := by
  intro i j same
  have texts : ("[" ++ toString i ++ "]").toList = ("[" ++ toString j ++ "]").toList :=
    congrArg String.toList same
  simp only [String.toList_append, List.append_assoc, List.append_cancel_left_eq,
    List.append_cancel_right_eq, Nat.toString_eq_repr, Nat.toList_repr] at texts
  rw [← Nat.ofDigitChars_toDigits (b := 10) (n := i) (by decide) (by decide), texts,
    Nat.ofDigitChars_toDigits (by decide) (by decide)]

/-- Of distinct keys those of one entry at most are changed to `k`: they stay distinct iff no other
entry has the key `k`. -/
theorem nodup_map_rename_iff {es : List Entry} {q : Entry → Prop} [DecidablePred q] {k : String}
    (hes : (es.map (·.data.key)).Nodup) (one : ∀ a ∈ es, ∀ b ∈ es, q a → q b → a = b) :
    (es.map fun e => if q e then k else e.data.key).Nodup ↔
      ∀ a ∈ es, q a → ∀ b ∈ es, ¬q b → b.data.key ≠ k := by
  have inj := List.inj_on_of_nodup_map hes
  rw [List.nodup_map_iff_inj_on (List.Nodup.of_map _ hes)]
  constructor
  · intro h a ha qa b hb qb same
    have : a = b := h a ha b hb (by rw [if_pos qa, if_neg qb, same])
    exact qb (this ▸ qa)
  · intro h a ha b hb same
    by_cases qa : q a <;> by_cases qb : q b
    · exact one a ha b hb qa qb
    · rw [if_pos qa, if_neg qb] at same
      exact absurd same.symm (h a ha qa b hb qb)
    · rw [if_neg qa, if_pos qb] at same
      exact absurd same (h b hb qb a ha qa)
    · rw [if_neg qa, if_neg qb] at same
      exact inj ha hb same

namespace Tree

variable {t t' t'' : Tree} {h parent : Handle} {d new : NodeData}

/-- The children of a node have distinct keys. -/
def DistinctKeys (_ : Entry) (children : List Entry) : Prop := (children.map (·.data.key)).Nodup

theorem uniqueKeys_iff : t.UniqueKeys ↔ t.forest.Everywhere (Shallow DistinctKeys) := by
  rw [UniqueKeys, Rose.everywhere_iff_ofRose]
  simp only [Forest.rootKeys_eq_map_rootLabels]
  rfl

/-- The items of every array are keyed by their positions. -/
def Numbered (t : Tree) : Prop :=
  t.top.Everywhere fun n => n.label.data.type = .array →
    n.children.rootKeys (·.data.key) = (List.range n.children.roots.length).map itemKey

instance (t : Tree) : Decidable t.Numbered :=
  inferInstanceAs (Decidable (t.top.Everywhere fun n => n.label.data.type = .array →
    n.children.rootKeys (·.data.key) = (List.range n.children.roots.length).map itemKey))

/-! ## Changes of other data -/

/-- The handle of a node and its key. -/
def handleAndKey (e : Entry) : Handle × String := (e.handle, e.data.key)

/-- Two trees have the same handles under the same keys. -/
structure SameKeys (t t' : Tree) : Prop where
  next : t'.next = t.next
  top : t'.top.map handleAndKey = t.top.map handleAndKey

theorem SameKeys.refl (t : Tree) : t.SameKeys t := ⟨rfl, rfl⟩

theorem SameKeys.trans (h : t.SameKeys t') (h' : t'.SameKeys t'') : t.SameKeys t'' :=
  ⟨h'.next.trans h.next, h'.top.trans h.top⟩

theorem sameKeys_map {g : Entry → Entry} (hg : ∀ e, handleAndKey (g e) = handleAndKey e) :
    t.SameKeys { t with top := t.top.map g } where
  next := rfl
  top := by
    rw [Rose.map_map]
    exact congrArg (t.top.map ·) (funext hg)

theorem sameKeys_modify {f : NodeData → NodeData} (hf : ∀ d, (f d).key = d.key) :
    t.SameKeys (t.modify h f) := by
  refine sameKeys_map fun e => ?_
  split
  · exact Prod.ext rfl (hf e.data)
  · rfl

theorem sameKeys_modifyAll {f : NodeData → NodeData} (hf : ∀ d, (f d).key = d.key) :
    t.SameKeys (t.modifyAll f) := sameKeys_map fun e => Prod.ext rfl (hf e.data)

/-- The data written over a node counts by its key only. -/
theorem SameKeys.modify (same : t.SameKeys t') :
    (t.modify h fun _ => new).SameKeys (t'.modify h fun _ => new) where
  next := same.next
  top := by
    have write : ∀ u : Tree, (u.modify h fun _ => new).top.map handleAndKey =
        (u.top.map handleAndKey).map fun x => if x.1 == h then (x.1, new.key) else x := by
      intro u
      rw [Tree.modify, Rose.relabel, Rose.map_map, Rose.map_map]
      refine congrArg (u.top.map ·) (funext fun e => ?_)
      show handleAndKey (if e.handle == h then { e with data := new } else e) =
        if e.handle == h then (e.handle, new.key) else (e.handle, e.data.key)
      split <;> rfl
    rw [write, write, same.top]

theorem sameKeys_renameReferences (t : Tree) (h : Handle) (m : Markers) (old new : String) :
    t.SameKeys (t.renameReferences h m old new).1 := by
  unfold renameReferences
  refine List.foldlRecOn (motive := fun x : Tree × Nat => t.SameKeys x.1) _ _ (.refl t)
    fun x same node _ => ?_
  dsimp only
  split
  next text _ =>
    exact same.trans (sameKeys_modify (f := fun d => { d with value := some (.string text) })
      fun _ => rfl)
  next => exact same

theorem sameKeys_renameAlias (t : Tree) (old new : String) :
    t.SameKeys (t.renameAlias old new).1 := by
  unfold renameAlias
  dsimp only
  refine sameKeys_modifyAll fun d => ?_
  split <;> rfl

theorem sameKeys_removeAlias (t : Tree) (name : String) : t.SameKeys (t.removeAlias name).1 := by
  unfold removeAlias
  dsimp only
  exact sameKeys_modifyAll fun _ => rfl

theorem handles_eq_map (t : Tree) :
    t.forest.handles = ((t.top.map handleAndKey).preorder).map Prod.fst := by
  rw [forest, Forest.handles, Rose.preorder_ofRose, Rose.preorder, Rose.preorder, Rose.map,
    Forest.preorder_map, List.map_cons, List.map_cons, List.map_map]
  rfl

theorem SameKeys.sound (same : t.SameKeys t') (ht : t.Sound) : t'.Sound := by
  refine ht.of_sublist ?_ same.next
  rw [handles_eq_map, same.top, ← handles_eq_map]

theorem uniqueKeys_iff_map :
    t.UniqueKeys ↔
      (t.top.map handleAndKey).Everywhere fun n => (n.children.rootKeys Prod.snd).Nodup := by
  rw [Rose.everywhere_map, UniqueKeys]
  simp only [Forest.rootKeys_eq_map_rootLabels, Rose.map, Forest.rootLabels_map, List.map_map]
  rfl

theorem SameKeys.uniqueKeys_iff (same : t.SameKeys t') : t'.UniqueKeys ↔ t.UniqueKeys := by
  rw [uniqueKeys_iff_map, same.top, ← uniqueKeys_iff_map]

/-! ## Nodes taken away -/

theorem UniqueKeys.clear (ht : t.UniqueKeys) (h : Handle) : (t.clear h).UniqueKeys := by
  rw [uniqueKeys_iff] at ht ⊢
  exact (everywhere_clear ht (fun _ _ _ => List.nodup_nil) h).mono fun _ hr => hr.1

/-- Items numbered anew are keyed by their positions. -/
theorem map_key_atPosition (es : List Entry) :
    (es.mapIdx atPosition).map (·.data.key) = (List.range es.length).map itemKey := by
  refine List.ext_getElem (by simp) fun i _ _ => ?_
  simp [atPosition]

theorem UniqueKeys.keepChildren (ht : t.UniqueKeys) (h : Handle) (keep : Entry → Bool) :
    (t.keepChildren h keep).UniqueKeys := by
  rw [uniqueKeys_iff] at ht ⊢
  refine everywhere_keepChildren ht (fun _ _ _ distinct => distinct) fun r hr _ => ?_
  unfold DistinctKeys
  split
  · rw [map_key_atPosition]
    exact List.nodup_range.map itemKey_injective
  · exact (List.filter_sublist.map _).nodup (ht r hr)

theorem UniqueKeys.remove (ht : t.UniqueKeys) (h : Handle) : (t.remove h).1.UniqueKeys := by
  unfold Tree.remove
  split
  · exact ht.keepChildren _ _
  · exact ht

/-! ## New nodes and new names -/

theorem child?_eq_none_iff {k : String} {r : Rose Entry} (hr : t.find? parent = some r) :
    t.child? parent k = none ↔ ∀ e ∈ r.children.rootLabels, e.data.key ≠ k := by
  rw [child?, below_of_find? hr, Option.map_eq_none_iff, Forest.findRoot?_eq_none_iff,
    Forest.rootKeys_eq_map_rootLabels, List.mem_map]
  simp

/-- A new node keeps sibling keys distinct iff its key is free. -/
theorem uniqueKeys_graft_iff (ht : t.Sound) (hu : t.UniqueKeys) (there : t.contains parent) :
    (t.graft parent ⟨d, .nil⟩).1.UniqueKeys ↔ t.child? parent d.key = none := by
  obtain ⟨r, hr⟩ := Option.isSome_iff_exists.1 there
  have inside := find?_mem hr
  have grafted : (t.graft parent ⟨d, .nil⟩).1.forest =
      t.forest.adjust (·.handle == parent) (· ++ .cons ⟨t.next, d⟩ .nil .nil) := by
    unfold graft graftAll
    rw [if_pos there]
    rfl
  have added : DistinctKeys r.label (r.children.rootLabels ++ [⟨t.next, d⟩]) ↔
      t.child? parent d.key = none := by
    have old := (uniqueKeys_iff.1 hu).of_mem_subtrees inside
    rw [child?_eq_none_iff hr, DistinctKeys, List.map_append, List.nodup_append]
    constructor
    · intro h e he
      exact h.2.2 _ (List.mem_map_of_mem he) _ List.mem_cons_self
    · intro h
      refine ⟨old.1, List.nodup_singleton _, fun a ha b hb => ?_⟩
      obtain ⟨e, he, rfl⟩ := List.mem_map.1 ha
      rw [List.mem_singleton.1 hb]
      exact h e he
  rw [← added, uniqueKeys_iff, grafted]
  constructor
  · intro h
    have found : (t.forest.adjust (·.handle == parent) (· ++ .cons ⟨t.next, d⟩ .nil .nil)).find?
        (·.handle == parent) = some ⟨r.label, r.children ++ .cons ⟨t.next, d⟩ .nil .nil⟩ := by
      rw [Forest.find?_adjust, show t.forest.find? _ = some r from hr]
      rfl
    have distinct := h _ (Forest.find?_mem_subtrees found)
    rwa [Shallow, Forest.rootLabels_append] at distinct
  · intro h
    refine Forest.everywhere_adjust (uniqueKeys_iff.1 hu) fun s hs same => ?_
    have named : t.find? parent = some s := by
      have := ht.find?_of_mem hs
      rwa [show s.label.handle = parent by simpa using same] at this
    cases hr.symm.trans named
    rw [Forest.rootLabels_append]
    refine ⟨h, Forest.everywhere_append.2 ⟨((uniqueKeys_iff.1 hu).of_mem_subtrees inside).2, ?_⟩⟩
    exact Forest.everywhere_cons.2 ⟨List.nodup_nil, Forest.everywhere_nil, Forest.everywhere_nil⟩

/-- One child of a node at most gets a new name: keys stay distinct iff no sibling has it. -/
theorem uniqueKeys_rename_iff (hu : t.UniqueKeys) {q : Entry → Prop} [DecidablePred q]
    {g : NodeData → NodeData} {k : String} (hg : ∀ d, (g d).key = k)
    (one : ∀ r ∈ t.forest.subtrees, ∀ a ∈ r.children.rootLabels, ∀ b ∈ r.children.rootLabels,
      q a → q b → a = b) :
    ({ t with top := t.top.map fun e => if q e then { e with data := g e.data } else e } :
        Tree).UniqueKeys ↔
      ∀ r ∈ t.forest.subtrees, ∀ a ∈ r.children.rootLabels, q a →
        ∀ b ∈ r.children.rootLabels, ¬q b → b.data.key ≠ k := by
  have keys : ∀ es : List Entry,
      (es.map fun e => if q e then { e with data := g e.data } else e).map (·.data.key) =
        es.map fun e => if q e then k else e.data.key := by
    intro es
    rw [List.map_map]
    refine List.map_congr_left fun e _ => ?_
    rw [Function.comp_apply]
    split
    · exact hg e.data
    · rfl
  rw [uniqueKeys_iff, forest, Rose.ofRose_map, Forest.everywhere_map]
  refine forall₂_congr fun r hr => ?_
  unfold Shallow DistinctKeys Rose.map
  beta_reduce
  rw [Forest.rootLabels_map, keys]
  exact nodup_map_rename_iff ((uniqueKeys_iff.1 hu) r hr) (one r hr)

/-- Data written over a node keeps sibling keys distinct if its key is the node's or is free. -/
theorem UniqueKeys.modify (hu : t.UniqueKeys) (ht : t.Sound) (hd : t.data? h = some d)
    (free : new.key = d.key ∨ ∀ p, t.parent? h = some p → t.child? p new.key = none) :
    (t.modify h fun _ => new).UniqueKeys := by
  refine (uniqueKeys_rename_iff hu (q := fun e => e.handle == h) (g := fun _ => new)
    (fun _ => rfl) ?_).2 ?_
  · intro r hr a ha b hb qa qb
    exact ht.eq_of_handle (Forest.mem_preorder_of_child hr ha) (Forest.mem_preorder_of_child hr hb)
      ((beq_iff_eq.1 qa).trans (beq_iff_eq.1 qb).symm)
  · intro r hr a ha qa b hb qb
    obtain rfl := beq_iff_eq.1 qa
    rcases free with same | free
    · have : a.data = d := Option.some.inj ((ht.data?_of_child hr ha).symm.trans hd)
      rw [same, ← this]
      intro clash
      have : b = a := List.inj_on_of_nodup_map ((uniqueKeys_iff.1 hu) r hr) hb ha clash
      exact qb (this ▸ beq_self_eq_true _)
    · exact (child?_eq_none_iff (ht.find?_of_mem hr)).1 (free _ (ht.parent?_of_child hr ha)) b hb

theorem clear_modify (t : Tree) (h k : Handle) (f : NodeData → NodeData) :
    (t.clear k).modify h f = (t.modify h f).clear k := by
  refine Tree.ext_forest ?_ rfl rfl
  rw [forest_modify, clear, forest_adjust, clear, forest_adjust, forest_modify]
  refine Forest.map_adjust (h := fun _ => .nil) (fun e => ?_) (fun _ => rfl) _
  split <;> rfl

end Tree

end LayeredConfig
