import LayeredConfig.Proofs.Tree.Handles
import LayeredConfig.Tree.Arena
import Mathlib.Data.List.Perm.Subperm

/-!
# An arena holds a tree

`Arena.Holds` says that the links of an arena describe a forest: every node of it is in its slot,
with its parent and its children. An arena represents a tree when it holds it and nothing else
(`Arena.Represents`). Every change of the arena is the change of the tree that it represents
(`Represents.perform`), whatever handles it is given, so an arena represents a tree after every run
(`represents_run`).

The changes that edit links do so in steps after which the links disagree: a node that was freed is
still among the children of its parent. `node?_freeAll` says what the slots hold then.
-/

namespace LayeredConfig

namespace Arena

variable {a a' b : Arena} {h x : Handle}

/-! ## Slots -/

theorem node?_insert (a : Arena) (n : Link) (h : Handle) :
    (a.insert n).node? h = if h = a.slots.length then some n else a.node? h := by
  unfold node? insert
  rw [List.getElem?_append]
  by_cases inside : h < a.slots.length
  · rw [if_pos inside, if_neg (Nat.ne_of_lt inside)]
  · rw [if_neg inside]
    by_cases same : h = a.slots.length
    · simp [same]
    · have beyond := Nat.lt_of_le_of_ne (Nat.not_lt.1 inside) (Ne.symm same)
      rw [if_neg same, List.getElem?_eq_none (by simp; omega),
        List.getElem?_eq_none (Nat.not_lt.1 inside)]

theorem node?_update (a : Arena) (k : Handle) (f : Link → Link) (h : Handle) :
    (a.update k f).node? h = if h = k then (a.node? h).map f else a.node? h := by
  unfold node? update
  rw [List.getElem?_modify]
  by_cases same : h = k
  · subst same
    rw [if_pos rfl]
    cases a.slots[h]? with
    | none => rfl
    | some slot => cases slot <;> simp
  · rw [if_neg same]
    cases a.slots[h]? <;> simp [Ne.symm same]

theorem node?_erase (a : Arena) (k h : Handle) :
    (a.erase k).node? h = if h = k then none else a.node? h := by
  unfold node? erase
  rw [List.getElem?_set]
  by_cases same : h = k
  · subst same
    rw [if_pos rfl, if_pos rfl]
    split <;> rfl
  · rw [if_neg (Ne.symm same), if_neg same]

theorem node?_modify (a : Arena) (k : Handle) (f : NodeData → NodeData) (h : Handle) :
    (a.modify k f).node? h =
      if h = k then (a.node? h).map fun n => { n with data := f n.data } else a.node? h :=
  node?_update a k _ h

/-- Beyond the slots there is no node. -/
theorem lt_of_contains (h : a.contains x) : x < a.slots.length := by
  by_contra beyond
  unfold contains node? at h
  rw [List.getElem?_eq_none (Nat.not_lt.1 beyond)] at h
  cases h

/-! ## What a change leaves -/

/-- The arenas are of one kind, with one root and as many slots. -/
structure Kept (a a' : Arena) : Prop where
  kind : a'.kind = a.kind
  root : a'.root = a.root
  length : a'.slots.length = a.slots.length

theorem Kept.refl (a : Arena) : Kept a a := ⟨rfl, rfl, rfl⟩

theorem Kept.trans (h : Kept a a') (h' : Kept a' b) : Kept a b :=
  ⟨h'.kind.trans h.kind, h'.root.trans h.root, h'.length.trans h.length⟩

theorem kept_update (a : Arena) (h : Handle) (f : Link → Link) : Kept a (a.update h f) :=
  ⟨rfl, rfl, List.length_modify ..⟩

theorem kept_modify (a : Arena) (h : Handle) (f : NodeData → NodeData) : Kept a (a.modify h f) :=
  kept_update a h _

theorem kept_erase (a : Arena) (h : Handle) : Kept a (a.erase h) := ⟨rfl, rfl, List.length_set⟩

theorem kept_foldl {α : Type} {f : Arena → α → Arena} (step : ∀ a x, Kept a (f a x)) (l : List α)
    (a : Arena) : Kept a (l.foldl f a) := by
  induction l generalizing a with
  | nil => exact .refl a
  | cons x l ih => exact (step a x).trans (ih _)

theorem kept_free (depth : Nat) (a : Arena) (h : Handle) : Kept a (free depth a h) := by
  induction depth generalizing a h with
  | zero => exact .refl a
  | succ depth ih => exact (kept_foldl ih _ a).trans (kept_erase _ h)

theorem kept_freeAll (a : Arena) (hs : List Handle) : Kept a (a.freeAll hs) :=
  kept_foldl (kept_free _) hs a

theorem kept_renumber (a : Arena) (h : Handle) : Kept a (a.renumber h) :=
  kept_foldl (fun a _ => kept_modify a _ _) _ a

theorem kept_unlink (a : Arena) (h : Handle) (doomed : List Handle) :
    Kept a (a.unlink h doomed) := (kept_freeAll a doomed).trans (kept_update _ h _)

/-! ## Links that describe a forest -/

/-- Every node of the forest is in its slot, with its parent and its children. -/
def Holds (a : Arena) (parent : Option Handle) : Forest Entry → Prop
  | .nil => True
  | .cons e cs ss =>
    a.node? e.handle = some ⟨e.data, parent, cs.rootLabels.map (·.handle)⟩ ∧
      a.Holds (some e.handle) cs ∧ a.Holds parent ss

variable {parent : Option Handle} {f g : Forest Entry}

/-- Slots of other nodes do not matter. -/
theorem Holds.congr (hf : a.Holds parent f) (same : ∀ h ∈ f.handles, a'.node? h = a.node? h) :
    a'.Holds parent f := by
  induction f generalizing parent with
  | nil => trivial
  | cons e cs ss ihc ihs =>
    simp only [Forest.handles_cons, List.forall_mem_cons, List.forall_mem_append] at same
    exact ⟨same.1.trans hf.1, ihc hf.2.1 same.2.1, ihs hf.2.2 same.2.2⟩

theorem holds_append : a.Holds parent (f ++ g) ↔ a.Holds parent f ∧ a.Holds parent g := by
  induction f generalizing parent with
  | nil => simp [Holds]
  | cons e cs ss _ ih =>
    rw [Forest.cons_append, Holds, Holds, ih]
    simp only [and_assoc]

/-- The slot of a node of the forest. -/
theorem Holds.node (hf : a.Holds parent f) {r : Rose Entry} (hr : r ∈ f.subtrees) :
    (∃ p, a.node? r.label.handle =
      some ⟨r.label.data, p, r.children.rootLabels.map (·.handle)⟩) ∧
        a.Holds (some r.label.handle) r.children := by
  induction f generalizing parent with
  | nil => cases hr
  | cons e cs ss ihc ihs =>
    rw [Forest.subtrees, List.mem_cons, List.mem_append] at hr
    rcases hr with rfl | hr | hr
    · exact ⟨⟨_, hf.1⟩, hf.2.1⟩
    · exact ihc hf.2.1 hr
    · exact ihs hf.2.2 hr

/-- A node of the forest is one of its trees, or its parent has it among its children. -/
theorem Holds.parent?_cases (hf : a.Holds parent f) {e : Entry} (he : e ∈ f.preorder) :
    (e ∈ f.rootLabels ∧ a.parent? e.handle = parent) ∨
      ∃ r ∈ f.subtrees, e ∈ r.children.rootLabels ∧ a.parent? e.handle = some r.label.handle := by
  induction f generalizing parent with
  | nil => cases he
  | cons x cs ss ihc ihs =>
    obtain ⟨hx, hcs, hss⟩ := hf
    simp only [Forest.subtrees, List.mem_cons, List.mem_append, Forest.rootLabels]
    rw [Forest.preorder, List.mem_cons, List.mem_append] at he
    rcases he with rfl | he | he
    · exact Or.inl ⟨Or.inl rfl, by rw [Arena.parent?, hx]; rfl⟩
    · rcases ihc hcs he with ⟨root, same⟩ | ⟨r, hr, found⟩
      · exact Or.inr ⟨_, Or.inl rfl, root, same⟩
      · exact Or.inr ⟨r, Or.inr (Or.inl hr), found⟩
    · rcases ihs hss he with ⟨root, same⟩ | ⟨r, hr, found⟩
      · exact Or.inl ⟨Or.inr root, same⟩
      · exact Or.inr ⟨r, Or.inr (Or.inr hr), found⟩

theorem Holds.contains (hf : a.Holds parent f) (hx : x ∈ f.handles) : a.contains x := by
  obtain ⟨e, he, rfl⟩ := Forest.mem_handles.1 hx
  rw [← Forest.map_label_subtrees, List.mem_map] at he
  obtain ⟨r, hr, rfl⟩ := he
  obtain ⟨⟨p, node⟩, -⟩ := hf.node hr
  rw [Arena.contains, node]
  rfl

/-! ## Freeing -/

/-- Freeing the trees of a forest empties the slots of their nodes and no others. The induction is
on the forest that the links describe, which is no longer described once a part of it is freed. -/
theorem node?_foldl_free {depth : Nat} (hf : a.Holds parent f) (distinct : f.handles.Nodup)
    (deep : f.depth ≤ depth) (x : Handle) :
    ((f.rootLabels.map (·.handle)).foldl (free depth) a).node? x =
      if x ∈ f.handles then none else a.node? x := by
  induction f generalizing a depth parent x with
  | nil => rfl
  | cons e cs ss ihc ihs =>
    obtain ⟨he, hcs, hss⟩ := hf
    obtain ⟨outside, dcs, dss, apart⟩ := Forest.nodup_handles_cons.1 distinct
    rw [Forest.depth] at deep
    obtain ⟨k, rfl⟩ : ∃ k, depth = k + 1 := ⟨depth - 1, by omega⟩
    have children : a.children e.handle = cs.rootLabels.map (·.handle) := by
      rw [Arena.children, he, Option.map_some, Option.getD_some]
    have first : ∀ x, (free (k + 1) a e.handle).node? x =
        if x ∈ e.handle :: cs.handles then none else a.node? x := by
      intro x
      rw [free, children, node?_erase, ihc hcs dcs (by omega)]
      by_cases same : x = e.handle
      · simp [same]
      · simp [same]
    have rest : (free (k + 1) a e.handle).Holds parent ss := by
      refine hss.congr fun y hy => ?_
      rw [first, if_neg]
      rintro (_ | ⟨_, inside⟩)
      · exact outside.2 hy
      · exact apart inside hy
    rw [Forest.rootLabels, List.map_cons, List.foldl_cons, ihs rest dss (by omega), first,
      Forest.handles_cons]
    by_cases hx : x ∈ ss.handles
    · simp [hx]
    · simp [hx]

end Arena

/-! ## Handles after a change below one node -/

namespace Forest

variable {f : Forest Entry} {r : Rose Entry} {x : Handle}

theorem mem_handles_of_mem_below (hr : r ∈ f.subtrees) (hx : x ∈ r.children.handles) :
    x ∈ f.handles := by
  obtain ⟨e, he, rfl⟩ := mem_handles.1 hx
  exact List.mem_map_of_mem (mem_preorder_of_mem_subtrees hr (List.mem_cons_of_mem _ he))

theorem handle_not_mem_below (distinct : f.handles.Nodup) (hr : r ∈ f.subtrees) :
    r.label.handle ∉ r.children.handles ∧ r.children.handles.Nodup := by
  induction f with
  | nil => cases hr
  | cons e cs ss ihc ihs =>
    obtain ⟨outside, dcs, dss, -⟩ := nodup_handles_cons.1 distinct
    rw [subtrees, List.mem_cons, List.mem_append] at hr
    rcases hr with rfl | hr | hr
    · exact ⟨outside.1, dcs⟩
    · exact ihc dcs hr
    · exact ihs dss hr

/-- What was not below the node is still there, and what is put below it is there. -/
theorem mem_handles_adjust (distinct : f.handles.Nodup) (hr : r ∈ f.subtrees)
    {g : Forest Entry → Forest Entry}
    (hx : x ∈ f.handles ∧ x ∉ r.children.handles ∨ x ∈ (g r.children).handles) :
    x ∈ (f.adjust (·.handle == r.label.handle) g).handles := by
  induction f with
  | nil => cases hr
  | cons e cs ss ihc ihs =>
    obtain ⟨outside, dcs, dss, apart⟩ := nodup_handles_cons.1 distinct
    rw [subtrees, List.mem_cons, List.mem_append] at hr
    rw [adjust, handles_cons, List.mem_cons, List.mem_append]
    rw [handles_cons, List.mem_cons, List.mem_append] at hx
    rcases hr with rfl | hr | hr
    · rw [if_pos (beq_self_eq_true _),
        adjust_of_find?_eq_none (find?_eq_none_iff_handles.2 outside.2)]
      rcases hx with ⟨rfl | hx | hx, below⟩ | hx
      exacts [Or.inl rfl, absurd hx below, Or.inr (Or.inr hx), Or.inr (Or.inl hx)]
    · have inside := mem_handles_of_mem_subtrees hr
      rw [if_neg (not_beq_of_not_mem outside.1 inside),
        adjust_of_find?_eq_none (find?_eq_none_iff_handles.2 fun h => apart inside h)]
      rcases hx with ⟨rfl | hx | hx, below⟩ | hx
      exacts [Or.inl rfl, Or.inr (Or.inl (ihc dcs hr (Or.inl ⟨hx, below⟩))), Or.inr (Or.inr hx),
        Or.inr (Or.inl (ihc dcs hr (Or.inr hx)))]
    · have inside := mem_handles_of_mem_subtrees hr
      rw [if_neg (not_beq_of_not_mem outside.2 inside),
        adjust_of_find?_eq_none (find?_eq_none_iff_handles.2 fun h => apart h inside)]
      rcases hx with ⟨rfl | hx | hx, below⟩ | hx
      exacts [Or.inl rfl, Or.inr (Or.inl hx), Or.inr (Or.inr (ihs dss hr (Or.inl ⟨hx, below⟩))),
        Or.inr (Or.inr (ihs dss hr (Or.inr hx)))]

/-- The trees that are kept and those that are not. -/
theorem handles_filterRoots_perm (keep : Entry → Bool) (f : Forest Entry) :
    ((f.filterRoots keep).handles ++ (f.filterRoots (!keep ·)).handles).Perm f.handles := by
  induction f with
  | nil => exact List.Perm.refl _
  | cons e cs ss _ ih =>
    rw [filterRoots, filterRoots, handles_cons]
    cases keep e with
    | true =>
      rw [if_pos rfl, if_neg (by simp), handles_cons, List.cons_append, List.append_assoc]
      exact (ih.append_left _).cons _
    | false =>
      rw [if_neg (by simp), if_pos (by simp), handles_cons]
      refine List.perm_middle.trans (List.Perm.cons _ ?_)
      rw [← List.append_assoc]
      refine (List.perm_append_comm.append_right _).trans ?_
      rw [List.append_assoc]
      exact ih.append_left _

theorem depth_le_size (f : Forest Entry) : f.depth ≤ f.size := by
  induction f with
  | nil => exact Nat.le_refl _
  | cons e cs ss ihc ihs =>
    rw [depth, size]
    omega

theorem depth_lt_of_mem_subtrees (hr : r ∈ f.subtrees) : r.children.depth < f.depth := by
  induction f with
  | nil => cases hr
  | cons e cs ss ihc ihs =>
    rw [subtrees, List.mem_cons, List.mem_append] at hr
    rw [depth]
    rcases hr with rfl | hr | hr
    · dsimp only
      omega
    · have := ihc hr
      omega
    · have := ihs hr
      omega

theorem depth_filterRoots_le (keep : Entry → Bool) (f : Forest Entry) :
    (f.filterRoots keep).depth ≤ f.depth := by
  induction f with
  | nil => exact Nat.le_refl _
  | cons e cs ss _ ih =>
    rw [filterRoots, depth]
    split
    · rw [depth]
      omega
    · omega

end Forest

/-- A sound tree has no more nodes than handles were given out. -/
theorem Tree.Sound.size_le {t : Tree} (ht : t.Sound) : t.forest.size ≤ t.next := by
  have inside : t.forest.handles ⊆ List.range t.next := fun x hx =>
    List.mem_range.2 (ht.below x hx)
  have fewer := (List.Nodup.subperm ht.distinct inside).length_le
  rwa [List.length_range, Forest.handles, List.length_map, Forest.length_preorder] at fewer

/-- In a sound tree no way down is longer than the number of handles given out. -/
theorem Tree.Sound.depth_le {t : Tree} (ht : t.Sound) : t.forest.depth ≤ t.next :=
  Nat.le_trans t.forest.depth_le_size ht.size_le

namespace Arena

variable {a a' b : Arena} {h x : Handle} {parent : Option Handle} {f g : Forest Entry}
  {t : Tree} {r : Rose Entry}

/-- Links that are changed at one node and below it describe the changed forest. -/
theorem Holds.adjust (hf : a.Holds parent f) (distinct : f.handles.Nodup) (hr : r ∈ f.subtrees)
    {g : Forest Entry → Forest Entry}
    (here : ∀ n, a.node? r.label.handle = some n → a'.node? r.label.handle =
      some { n with children := (g r.children).rootLabels.map (·.handle) })
    (below : a'.Holds (some r.label.handle) (g r.children))
    (other : ∀ y ∈ f.handles, y ≠ r.label.handle → y ∉ r.children.handles →
      a'.node? y = a.node? y) :
    a'.Holds parent (f.adjust (·.handle == r.label.handle) g) := by
  induction f generalizing parent with
  | nil => cases hr
  | cons e cs ss ihc ihs =>
    obtain ⟨outside, dcs, dss, apart⟩ := Forest.nodup_handles_cons.1 distinct
    obtain ⟨he, hcs, hss⟩ := hf
    simp only [Forest.handles_cons, List.forall_mem_cons, List.forall_mem_append] at other
    obtain ⟨oe, ocs, oss⟩ := other
    rw [Forest.subtrees, List.mem_cons, List.mem_append] at hr
    rw [Forest.adjust]
    rcases hr with rfl | hr | hr
    · rw [if_pos (beq_self_eq_true _),
        Forest.adjust_of_find?_eq_none (Forest.find?_eq_none_iff_handles.2 outside.2)]
      refine ⟨here _ he, below, hss.congr fun y hy => oss y hy ?_ fun inside => apart inside hy⟩
      rintro rfl
      exact outside.2 hy
    · have inside := Forest.mem_handles_of_mem_subtrees hr
      have deeper := fun y => Forest.mem_handles_of_mem_below (x := y) hr
      rw [if_neg (Forest.not_beq_of_not_mem outside.1 inside),
        Forest.adjust_of_find?_eq_none (Forest.find?_eq_none_iff_handles.2 fun h => apart inside h)]
      refine ⟨?_, ihc hcs dcs hr ocs, hss.congr fun y hy => oss y hy ?_ fun h => apart (deeper y h) hy⟩
      · rw [Forest.rootLabels_adjust, oe ?_ fun h => outside.1 (deeper _ h), he]
        rintro same
        exact outside.1 (same ▸ inside)
      · rintro rfl
        exact apart inside hy
    · have inside := Forest.mem_handles_of_mem_subtrees hr
      have deeper := fun y => Forest.mem_handles_of_mem_below (x := y) hr
      rw [if_neg (Forest.not_beq_of_not_mem outside.2 inside),
        Forest.adjust_of_find?_eq_none (Forest.find?_eq_none_iff_handles.2 fun h => apart h inside)]
      refine ⟨?_, hcs.congr fun y hy => ocs y hy ?_ fun h => apart hy (deeper y h), ihs hss dss hr oss⟩
      · rw [oe ?_ fun h => outside.2 (deeper _ h), he]
        rintro same
        exact outside.2 (same ▸ inside)
      · rintro rfl
        exact apart hy inside

/-! ## Arenas and trees -/

/-- The arena holds the tree, and its other slots are empty. -/
structure Represents (a : Arena) (t : Tree) : Prop where
  kind : a.kind = t.kind
  root : a.root = t.root
  next : a.slots.length = t.next
  holds : a.Holds none t.forest
  only : ∀ x, a.contains x → x ∈ t.forest.handles
  sound : t.Sound

theorem represents_withRoot (kind : TreeKind) (data : NodeData) :
    (withRoot kind data).Represents (.single kind data) where
  kind := rfl
  root := rfl
  next := rfl
  holds := ⟨rfl, trivial, trivial⟩
  only x hx := by
    have first := lt_of_contains hx
    rw [withRoot, List.length_singleton, Nat.lt_one_iff] at first
    exact List.mem_singleton.2 first
  sound := Tree.sound_single kind data

namespace Represents

variable (ha : a.Represents t)

include ha

/-- An arena with the same nodes represents the same tree. -/
theorem of_node? (kept : Kept a a') (same : ∀ x, a'.node? x = a.node? x) : a'.Represents t where
  kind := kept.kind.trans ha.kind
  root := kept.root.trans ha.root
  next := kept.length.trans ha.next
  holds := ha.holds.congr fun x _ => same x
  only x hx := ha.only x (by rwa [Arena.contains, same x] at hx)
  sound := ha.sound

theorem node?_eq_none (missing : t.find? h = none) : a.node? h = none := by
  by_contra there
  exact Forest.find?_eq_none_iff_handles.1 missing
    (ha.only h (Option.isSome_iff_ne_none.2 there))

theorem contains_eq (h : Handle) : a.contains h = t.contains h := by
  rw [Bool.eq_iff_iff, Tree.contains_iff]
  exact ⟨ha.only h, fun hx => ha.holds.contains hx⟩

/-- The slot of a node of the tree. -/
theorem node (hr : t.find? h = some r) :
    ∃ p, a.node? h = some ⟨r.label.data, p, r.children.rootLabels.map (·.handle)⟩ := by
  obtain ⟨slot, -⟩ := ha.holds.node (Tree.find?_mem hr)
  rwa [Tree.find?_handle hr] at slot

theorem below (hr : t.find? h = some r) : a.Holds (some h) r.children := by
  obtain ⟨-, inside⟩ := ha.holds.node (Tree.find?_mem hr)
  rwa [Tree.find?_handle hr] at inside

theorem children_eq (h : Handle) : a.children h = t.children h := by
  unfold Arena.children Tree.children Tree.below
  cases hr : t.find? h with
  | none => rw [ha.node?_eq_none hr]; rfl
  | some r =>
    obtain ⟨p, node⟩ := ha.node hr
    rw [node]
    rfl

theorem isArray_eq (h : Handle) : a.isArray h = t.isArray h := by
  unfold Arena.isArray Tree.isArray Tree.data?
  cases hr : t.find? h with
  | none => rw [ha.node?_eq_none hr]; rfl
  | some r =>
    obtain ⟨p, node⟩ := ha.node hr
    rw [node]
    rfl

/-- Links that are changed at one node and below it represent the changed tree. -/
theorem adjust (hr : t.find? h = some r) {g : Forest Entry → Forest Entry} {next : Handle}
    (kind : a'.kind = a.kind) (root : a'.root = a.root) (length : a'.slots.length = next)
    (here : ∀ n, a.node? h = some n → a'.node? h =
      some { n with children := (g r.children).rootLabels.map (·.handle) })
    (below : a'.Holds (some h) (g r.children))
    (other : ∀ y, a.contains y → y ≠ h → y ∉ r.children.handles → a'.node? y = a.node? y)
    (only : ∀ y, a'.contains y →
      a.contains y ∧ y ∉ r.children.handles ∨ y ∈ (g r.children).handles)
    (sound : ({ t.adjust h g with next } : Tree).Sound) :
    a'.Represents { t.adjust h g with next } := by
  obtain rfl := Tree.find?_handle hr
  have inside := Tree.find?_mem hr
  exact
    { kind := kind.trans ha.kind
      root := root.trans ha.root
      next := length
      holds := ha.holds.adjust ha.sound.distinct inside here below
        fun y hy => other y (ha.holds.contains hy)
      only := fun y hy => Forest.mem_handles_adjust ha.sound.distinct inside
        ((only y hy).imp_left fun there => ⟨ha.only y there.1, there.2⟩)
      sound }

end Represents

end Arena

end LayeredConfig
