import LayeredConfig.Proofs.Forest.Changes
import LayeredConfig.Tree.Edit

/-!
# Trees whose handles name one node each

A tree is `Sound` when no two nodes share a handle and `next` is above all of them. Then a handle
names the one node that bears it (`find?_of_mem`), and the parent of a node is the node that has it
among its children (`parent?_eq_some_iff`). Every change of a tree keeps it sound: most change data
or take nodes away (`Sound.of_sublist`), and new nodes have handles from `next` on
(`Sound.graftAll`).
-/

namespace LayeredConfig

namespace Forest

/-- The handles of a forest, in pre-order. -/
def handles (f : Forest Entry) : List Handle := f.preorder.map (·.handle)

@[simp] theorem handles_nil : (Forest.nil : Forest Entry).handles = [] := rfl

@[simp] theorem handles_cons (e : Entry) (cs ss : Forest Entry) :
    (Forest.cons e cs ss).handles = e.handle :: (cs.handles ++ ss.handles) := by
  simp [handles, preorder]

@[simp] theorem handles_append (f g : Forest Entry) : (f ++ g).handles = f.handles ++ g.handles := by
  simp [handles]

theorem handles_map {g : Entry → Entry} (hg : ∀ e, (g e).handle = e.handle) (f : Forest Entry) :
    (f.map g).handles = f.handles := by
  simp [handles, Function.comp_def, hg]

theorem mem_handles {f : Forest Entry} {h : Handle} :
    h ∈ f.handles ↔ ∃ e ∈ f.preorder, e.handle = h := List.mem_map

theorem find?_eq_none_iff_handles {f : Forest Entry} {h : Handle} :
    f.find? (·.handle == h) = none ↔ h ∉ f.handles := by
  rw [find?_eq_none_iff, mem_handles]
  simp

variable {f : Forest Entry} {r : Rose Entry} {e : Entry}

theorem nodup_handles_cons {a : Entry} {cs ss : Forest Entry} :
    (Forest.cons a cs ss).handles.Nodup ↔ (a.handle ∉ cs.handles ∧ a.handle ∉ ss.handles) ∧
      cs.handles.Nodup ∧ ss.handles.Nodup ∧ cs.handles.Disjoint ss.handles := by
  rw [handles_cons, List.nodup_cons, List.nodup_append', List.mem_append, not_or]

theorem not_beq_of_not_mem {a : Entry} {h : Handle} {hs : List Handle} (ha : a.handle ∉ hs)
    (hh : h ∈ hs) : ¬(a.handle == h) = true := by
  rw [beq_iff_eq]
  rintro rfl
  exact ha hh

theorem mem_handles_of_mem_subtrees (hr : r ∈ f.subtrees) : r.label.handle ∈ f.handles :=
  List.mem_map_of_mem (mem_preorder_of_mem_subtrees hr List.mem_cons_self)

theorem mem_handles_of_mem_children (hr : r ∈ f.subtrees) (he : e ∈ r.children.rootLabels) :
    e.handle ∈ f.handles :=
  List.mem_map_of_mem (mem_preorder_of_child hr he)

/-- Where handles are distinct, every subtree is the one that its handle names. -/
theorem find?_of_mem_subtrees (hf : f.handles.Nodup) (hr : r ∈ f.subtrees) :
    f.find? (·.handle == r.label.handle) = some r := by
  induction f with
  | nil => cases hr
  | cons a cs ss ihc ihs =>
    obtain ⟨ha, hcs, hss, apart⟩ := nodup_handles_cons.1 hf
    rw [subtrees, List.mem_cons, List.mem_append] at hr
    rw [find?]
    rcases hr with rfl | hr | hr
    · exact if_pos (beq_self_eq_true _)
    · have inside := mem_handles_of_mem_subtrees hr
      rw [if_neg (not_beq_of_not_mem ha.1 inside), ihc hcs hr]
      rfl
    · have inside := mem_handles_of_mem_subtrees hr
      have outside : cs.find? (·.handle == r.label.handle) = none :=
        find?_eq_none_iff_handles.2 fun h => apart h inside
      rw [if_neg (not_beq_of_not_mem ha.2 inside), outside, ihs hss hr]
      rfl

/-- A node of a forest is one of its trees or a child. -/
theorem mem_rootLabels_or_children (he : e ∈ f.preorder) :
    e ∈ f.rootLabels ∨ ∃ r ∈ f.subtrees, e ∈ r.children.rootLabels := by
  induction f with
  | nil => cases he
  | cons a cs ss ihc ihs =>
    simp only [rootLabels, subtrees, List.mem_cons, List.mem_append]
    rw [preorder, List.mem_cons, List.mem_append] at he
    rcases he with rfl | he | he
    · exact Or.inl (Or.inl rfl)
    · rcases ihc he with root | ⟨r, hr, child⟩
      · exact Or.inr ⟨_, Or.inl rfl, root⟩
      · exact Or.inr ⟨r, Or.inr (Or.inl hr), child⟩
    · rcases ihs he with root | ⟨r, hr, child⟩
      · exact Or.inl (Or.inr root)
      · exact Or.inr ⟨r, Or.inr (Or.inr hr), child⟩

/-! ## The way to a node -/

variable {p : Entry → Bool} {way : List Entry}

theorem trail?_eq_none_iff : f.trail? p = none ↔ f.find? p = none := by
  induction f with
  | nil => simp [trail?, find?]
  | cons a cs ss ihc ihs =>
    rw [trail?, find?]
    split
    · simp
    · rw [Option.or_eq_none_iff, Option.or_eq_none_iff, Option.map_eq_none_iff, ihc, ihs]

/-- A way starts at one of the trees, and at its end if it is no longer. -/
theorem trail?_head (h : f.trail? p = some way) :
    ∃ a rest, way = a :: rest ∧ a ∈ f.rootLabels ∧ (rest = [] → p a) := by
  induction f generalizing way with
  | nil => cases h
  | cons a cs ss ihc ihs =>
    rw [trail?] at h
    split at h
    · rename_i ha
      cases h
      exact ⟨a, [], rfl, List.mem_cons_self, fun _ => ha⟩
    · rcases Option.or_eq_some_iff.1 h with h | ⟨-, h⟩
      · obtain ⟨below, hbelow, rfl⟩ := Option.map_eq_some_iff.1 h
        obtain ⟨b, rest, rfl, -⟩ := ihc hbelow
        exact ⟨a, b :: rest, rfl, List.mem_cons_self, fun none => by cases none⟩
      · obtain ⟨b, rest, same, mem, last⟩ := ihs h
        exact ⟨b, rest, same, List.mem_cons_of_mem _ mem, last⟩

/-- The last but one on a way is the node that has the last among its children. -/
theorem mem_children_of_trail? (h : f.trail? p = some way) {above : Entry}
    (ha : way.dropLast.getLast? = some above) :
    ∃ r ∈ f.subtrees, r.label = above ∧ ∃ e ∈ r.children.rootLabels, p e := by
  induction f generalizing way with
  | nil => cases h
  | cons a cs ss ihc ihs =>
    simp only [subtrees, List.mem_cons, List.mem_append]
    rw [trail?] at h
    split at h
    · cases h
      cases ha
    · rcases Option.or_eq_some_iff.1 h with h | ⟨-, h⟩
      · obtain ⟨below, hbelow, rfl⟩ := Option.map_eq_some_iff.1 h
        obtain ⟨b, rest, rfl, mem, last⟩ := trail?_head hbelow
        cases rest with
        | nil =>
          cases ha
          exact ⟨_, Or.inl rfl, rfl, b, mem, last rfl⟩
        | cons c rest =>
          obtain ⟨r, hr, found⟩ := ihc hbelow (by simpa using ha)
          exact ⟨r, Or.inr (Or.inl hr), found⟩
      · obtain ⟨r, hr, found⟩ := ihs h ha
        exact ⟨r, Or.inr (Or.inr hr), found⟩

theorem trail?_of_mem_rootLabels (hf : f.handles.Nodup) (he : e ∈ f.rootLabels) :
    f.trail? (·.handle == e.handle) = some [e] := by
  induction f with
  | nil => cases he
  | cons a cs ss _ ihs =>
    obtain ⟨ha, -, hss, apart⟩ := nodup_handles_cons.1 hf
    rw [trail?]
    rcases List.mem_cons.1 he with rfl | he
    · exact if_pos (beq_self_eq_true _)
    · have inside : e.handle ∈ ss.handles :=
        List.mem_map_of_mem (mem_preorder_of_mem_rootLabels he)
      have outside : cs.trail? (·.handle == e.handle) = none :=
        trail?_eq_none_iff.2 (find?_eq_none_iff_handles.2 fun h => apart h inside)
      rw [if_neg (not_beq_of_not_mem ha.2 inside), outside,
        ihs hss he]
      rfl

/-- The way to a child ends with its parent and itself. -/
theorem trail?_of_mem_children (hf : f.handles.Nodup) (hr : r ∈ f.subtrees)
    (he : e ∈ r.children.rootLabels) :
    ∃ way, f.trail? (·.handle == e.handle) = some (way ++ [r.label, e]) := by
  induction f with
  | nil => cases hr
  | cons a cs ss ihc ihs =>
    obtain ⟨ha, hcs, hss, apart⟩ := nodup_handles_cons.1 hf
    rw [subtrees, List.mem_cons, List.mem_append] at hr
    rw [trail?]
    rcases hr with rfl | hr | hr
    · have inside : e.handle ∈ cs.handles :=
        List.mem_map_of_mem (mem_preorder_of_mem_rootLabels he)
      rw [if_neg (not_beq_of_not_mem ha.1 inside),
        trail?_of_mem_rootLabels hcs he]
      exact ⟨[], rfl⟩
    · have inside := mem_handles_of_mem_children hr he
      obtain ⟨way, hway⟩ := ihc hcs hr
      rw [if_neg (not_beq_of_not_mem ha.1 inside), hway]
      exact ⟨a :: way, rfl⟩
    · have inside := mem_handles_of_mem_children hr he
      have outside : cs.trail? (·.handle == e.handle) = none :=
        trail?_eq_none_iff.2 (find?_eq_none_iff_handles.2 fun h => apart h inside)
      obtain ⟨way, hway⟩ := ihs hss hr
      rw [if_neg (not_beq_of_not_mem ha.2 inside), outside, hway]
      exact ⟨way, rfl⟩

/-! ## The handles after a change -/

theorem handles_adjust_sublist {h : Forest Entry → Forest Entry}
    (hh : ∀ cs, (h cs).handles.Sublist cs.handles) (p : Entry → Bool) (f : Forest Entry) :
    (f.adjust p h).handles.Sublist f.handles := by
  induction f with
  | nil => exact List.Sublist.refl _
  | cons a cs ss ihc ihs =>
    rw [adjust, handles_cons, handles_cons]
    refine (List.Sublist.append ?_ ihs).cons_cons _
    split
    · exact hh cs
    · exact ihc

theorem handles_filterRoots_sublist (keep : Entry → Bool) (f : Forest Entry) :
    (f.filterRoots keep).handles.Sublist f.handles :=
  (preorder_filterRoots_sublist keep f).map _

theorem handles_mapRoots {g : Nat → Entry → Entry} (hg : ∀ i e, (g i e).handle = e.handle)
    (f : Forest Entry) (first : Nat) : (f.mapRoots g first).handles = f.handles :=
  map_preorder_mapRoots hg f first

/-- New nodes are numbered in pre-order. -/
theorem handles_number (d : Forest NodeData) (next : Handle) :
    (d.number next).1.handles = List.range' next d.size ∧ (d.number next).2 = next + d.size := by
  induction d generalizing next with
  | nil => exact ⟨rfl, rfl⟩
  | cons a cs ss ihc ihs =>
    obtain ⟨hc, nc⟩ := ihc (next + 1)
    obtain ⟨hs, ns⟩ := ihs (next + 1 + cs.size)
    simp only [number, handles_cons, size, nc, ns, hc, hs]
    refine ⟨?_, by rw [Nat.add_assoc, Nat.add_assoc, Nat.add_assoc]⟩
    rw [List.range'_append_1, Nat.add_assoc, Nat.add_comm 1, List.range'_succ]

/-- Numbering adds handles and nothing else. -/
theorem map_data_number (f : Forest NodeData) (next : Handle) :
    (f.number next).1.map (·.data) = f := by
  induction f generalizing next with
  | nil => rfl
  | cons d cs ss ihc ihs => rw [number, map, ihc, ihs]

/-- What is put below a node that is there once is there once. -/
theorem preorder_adjust_append (hf : f.handles.Nodup) {h : Handle} (hh : h ∈ f.handles)
    (added : Forest Entry) :
    ((f.adjust (·.handle == h) (· ++ added)).preorder).Perm (f.preorder ++ added.preorder) := by
  induction f with
  | nil => cases hh
  | cons a cs ss ihc ihs =>
    obtain ⟨ha, hcs, hss, apart⟩ := nodup_handles_cons.1 hf
    rw [handles_cons, List.mem_cons, List.mem_append] at hh
    rw [adjust, preorder, preorder, List.cons_append, List.append_assoc]
    refine List.Perm.cons _ ?_
    rcases hh with rfl | hh | hh
    · rw [if_pos (beq_self_eq_true _), preorder_append,
        adjust_of_find?_eq_none (find?_eq_none_iff_handles.2 ha.2), List.append_assoc]
      exact List.Perm.append_left _ List.perm_append_comm
    · have outside : h ∉ ss.handles := fun hs => apart hh hs
      rw [if_neg (not_beq_of_not_mem ha.1 hh),
        adjust_of_find?_eq_none (find?_eq_none_iff_handles.2 outside)]
      refine ((ihc hcs hh).append_right _).trans ?_
      rw [List.append_assoc]
      exact List.Perm.append_left _ List.perm_append_comm
    · have outside : h ∉ cs.handles := fun hc => apart hc hh
      rw [if_neg (not_beq_of_not_mem ha.2 hh),
        adjust_of_find?_eq_none (find?_eq_none_iff_handles.2 outside)]
      exact List.Perm.append_left _ (ihs hss hh)

theorem handles_adjust_append (hf : f.handles.Nodup) {h : Handle} (hh : h ∈ f.handles)
    (added : Forest Entry) :
    ((f.adjust (·.handle == h) (· ++ added)).handles).Perm (f.handles ++ added.handles) := by
  have perm := (preorder_adjust_append hf hh added).map (·.handle)
  rwa [List.map_append] at perm

end Forest

namespace Tree

/-- Every node has a handle of its own, below the next one. -/
structure Sound (t : Tree) : Prop where
  distinct : t.forest.handles.Nodup
  below : ∀ h ∈ t.forest.handles, h < t.next

instance (t : Tree) : Decidable t.Sound :=
  decidable_of_iff (t.forest.handles.Nodup ∧ ∀ h ∈ t.forest.handles, h < t.next)
    ⟨fun h => ⟨h.1, h.2⟩, fun h => ⟨h.1, h.2⟩⟩

variable {t t' : Tree} {h parent : Handle}

theorem forest_adjust (t : Tree) (h : Handle) (f : Forest Entry → Forest Entry) :
    (t.adjust h f).forest = t.forest.adjust (·.handle == h) f := rfl

theorem forest_modify (t : Tree) (h : Handle) (f : NodeData → NodeData) :
    (t.modify h f).forest =
      t.forest.map fun e => if e.handle == h then { e with data := f e.data } else e := rfl

theorem ext_forest (top : t'.forest = t.forest) (kind : t'.kind = t.kind) (next : t'.next = t.next) :
    t' = t := by
  obtain ⟨kind, ⟨e, cs⟩, n⟩ := t
  obtain ⟨kind', ⟨e', cs'⟩, n'⟩ := t'
  cases top
  cases kind
  cases next
  rfl

theorem contains_iff : t.contains h ↔ h ∈ t.forest.handles := by
  rw [contains, find?, Option.isSome_iff_ne_none, ne_eq, Forest.find?_eq_none_iff_handles, not_not]

theorem find?_mem {r : Rose Entry} (hr : t.find? h = some r) : r ∈ t.forest.subtrees :=
  Forest.find?_mem_subtrees hr

theorem find?_handle {r : Rose Entry} (hr : t.find? h = some r) : r.label.handle = h := by
  simpa using Forest.find?_label hr

theorem contains_of_find? {r : Rose Entry} (hr : t.find? h = some r) : t.contains h := by
  rw [contains, hr]
  rfl

theorem contains_of_data? {d : NodeData} (hd : t.data? h = some d) : t.contains h := by
  obtain ⟨r, hr, -⟩ := Option.map_eq_some_iff.1 hd
  exact contains_of_find? hr

/-- A draft is added below a node that is there, under the next handle. -/
theorem graft_of_contains (there : t.contains parent) (draft : Draft) :
    t.graft parent draft = ((t.graft parent draft).1, some t.next) := by
  refine Prod.ext rfl ?_
  unfold graft graftAll
  rw [if_pos there]
  rfl

theorem below_of_find? {r : Rose Entry} (hr : t.find? h = some r) : t.below h = r.children := by
  rw [Tree.below, hr]

theorem Sound.find?_of_mem (ht : t.Sound) {r : Rose Entry} (hr : r ∈ t.forest.subtrees) :
    t.find? r.label.handle = some r := Forest.find?_of_mem_subtrees ht.distinct hr

/-- A handle names one node. -/
theorem Sound.eq_of_handle (ht : t.Sound) {a b : Entry} (ha : a ∈ t.forest.preorder)
    (hb : b ∈ t.forest.preorder) (same : a.handle = b.handle) : a = b :=
  List.inj_on_of_nodup_map ht.distinct ha hb same

theorem Sound.data?_of_mem (ht : t.Sound) {e : Entry} (he : e ∈ t.forest.preorder) :
    t.data? e.handle = some e.data := by
  rw [← Forest.map_label_subtrees, List.mem_map] at he
  obtain ⟨r, hr, rfl⟩ := he
  rw [data?, ht.find?_of_mem hr, Option.map_some]

theorem Sound.data?_of_child (ht : t.Sound) {r : Rose Entry} (hr : r ∈ t.forest.subtrees) {e : Entry}
    (he : e ∈ r.children.rootLabels) : t.data? e.handle = some e.data :=
  ht.data?_of_mem (Forest.mem_preorder_of_child hr he)

/-- The data of a handle are those of the node that bears it. -/
theorem Sound.data?_eq_some_iff (ht : t.Sound) {d : NodeData} :
    t.data? h = some d ↔ (⟨h, d⟩ : Entry) ∈ t.forest.preorder := by
  constructor
  · intro known
    obtain ⟨r, hr, rfl⟩ := Option.map_eq_some_iff.1 known
    have inside : r.label ∈ t.forest.preorder :=
      Forest.mem_preorder_of_mem_subtrees (find?_mem hr) List.mem_cons_self
    rwa [← find?_handle hr]
  · exact fun inside => ht.data?_of_mem inside

theorem mem_children_iff : h ∈ t.children parent ↔
    ∃ r, t.find? parent = some r ∧ ∃ e ∈ r.children.rootLabels, e.handle = h := by
  unfold children Tree.below
  cases t.find? parent with
  | none => simp [Forest.rootLabels]
  | some r => simp

theorem key_of_findRoot? {f : Forest Entry} {key : String} {r : Rose Entry}
    (hr : f.findRoot? (·.data.key == key) = some r) : r.label.data.key = key :=
  @Forest.findRoot?_key Entry (·.data.key) f key r hr

theorem exists_of_child? {key : String} {x : Handle} (hx : t.child? h key = some x) :
    ∃ r, t.find? h = some r ∧ ∃ e ∈ r.children.rootLabels, e.handle = x ∧ e.data.key = key := by
  obtain ⟨n, hn, rfl⟩ := Option.map_eq_some_iff.1 hx
  unfold Tree.below at hn
  cases found : t.find? h with
  | none =>
    rw [found] at hn
    cases hn
  | some r =>
    rw [found] at hn
    have child := Forest.label_mem_rootLabels (Forest.findRoot?_mem hn)
    exact ⟨r, rfl, n.label, child, rfl, key_of_findRoot? hn⟩

theorem isArray_of_data? {d : NodeData} (hd : t.data? h = some d) : t.isArray h ↔ d.type = .array := by
  rw [isArray, hd, beq_iff_eq]

theorem isArray_of_find? {r : Rose Entry} (hr : t.find? h = some r) :
    t.isArray h = (r.label.data.type == .array) := by
  rw [isArray, data?, hr, Option.map_some]

theorem parent?_root (t : Tree) : t.parent? t.root = none := by
  simp [parent?, trail, forest, Forest.ofRose, Forest.trail?, root]

/-- The parent of a node is the one that has it among its children. -/
theorem Sound.parent?_eq_some_iff (ht : t.Sound) :
    t.parent? h = some parent ↔ h ∈ t.children parent := by
  rw [mem_children_iff]
  unfold parent? trail
  constructor
  · intro hp
    obtain ⟨above, habove, rfl⟩ := Option.map_eq_some_iff.1 hp
    cases way : t.forest.trail? (·.handle == h) with
    | none =>
      rw [way] at habove
      cases habove
    | some w =>
      rw [way] at habove
      obtain ⟨r, hr, rfl, e, he, same⟩ := Forest.mem_children_of_trail? way habove
      exact ⟨r, ht.find?_of_mem hr, e, he, by simpa using same⟩
  · rintro ⟨r, hr, e, he, rfl⟩
    obtain ⟨way, hway⟩ := Forest.trail?_of_mem_children ht.distinct (find?_mem hr) he
    have last : (way ++ [r.label, e]).dropLast.getLast? = some r.label := by
      rw [List.dropLast_append_of_ne_nil (by simp)]
      simp
    rw [hway, Option.getD_some, last, Option.map_some, find?_handle hr]

theorem Sound.parent?_of_child (ht : t.Sound) (hr : r ∈ t.forest.subtrees) {e : Entry}
    (he : e ∈ r.children.rootLabels) : t.parent? e.handle = some r.label.handle :=
  ht.parent?_eq_some_iff.2 (mem_children_iff.2 ⟨r, ht.find?_of_mem hr, e, he, rfl⟩)

/-- Every node but the root has a parent. -/
theorem Sound.exists_parent (ht : t.Sound) (there : h ∈ t.forest.handles) (below : h ≠ t.root) :
    ∃ p, t.parent? h = some p := by
  obtain ⟨e, he, rfl⟩ := Forest.mem_handles.1 there
  rcases Forest.mem_rootLabels_or_children he with root | ⟨r, hr, child⟩
  · rw [List.mem_singleton.1 root] at below
    exact absurd rfl below
  · exact ⟨_, ht.parent?_of_child hr child⟩

theorem Sound.of_sublist (ht : t.Sound) (hs : t'.forest.handles.Sublist t.forest.handles)
    (hn : t'.next = t.next) : t'.Sound where
  distinct := hs.nodup ht.distinct
  below h hh := hn ▸ ht.below h (hs.subset hh)

theorem Sound.map (ht : t.Sound) {g : Entry → Entry} (hg : ∀ e, (g e).handle = e.handle) :
    ({ t with top := t.top.map g } : Tree).Sound := by
  have same : ({ t with top := t.top.map g } : Tree).forest.handles = t.forest.handles :=
    Forest.handles_map hg t.forest
  exact ht.of_sublist (same ▸ List.Sublist.refl _) rfl

theorem Sound.modify (ht : t.Sound) (h : Handle) (f : NodeData → NodeData) :
    (t.modify h f).Sound := ht.map fun e => by split <;> rfl

theorem Sound.adjust (ht : t.Sound) {f : Forest Entry → Forest Entry}
    (hf : ∀ cs, (f cs).handles.Sublist cs.handles) (h : Handle) : (t.adjust h f).Sound :=
  ht.of_sublist (Forest.handles_adjust_sublist hf (·.handle == h) t.forest) rfl

theorem Sound.clear (ht : t.Sound) (h : Handle) : (t.clear h).Sound :=
  ht.adjust (f := fun _ => .nil) (fun cs => List.nil_sublist cs.handles) h

theorem handles_keepChildren_sublist (t : Tree) (h : Handle) (keep : Entry → Bool) :
    (t.keepChildren h keep).forest.handles.Sublist t.forest.handles := by
  refine Forest.handles_adjust_sublist (fun cs => ?_) (·.handle == h) t.forest
  dsimp only
  split
  · rw [renumbered, Forest.handles_mapRoots]
    · exact Forest.handles_filterRoots_sublist keep cs
    · exact fun _ _ => rfl
  · exact Forest.handles_filterRoots_sublist keep cs

theorem Sound.keepChildren (ht : t.Sound) (h : Handle) (keep : Entry → Bool) :
    (t.keepChildren h keep).Sound := ht.of_sublist (handles_keepChildren_sublist t h keep) rfl

theorem Sound.remove (ht : t.Sound) (h : Handle) : (t.remove h).1.Sound := by
  unfold Tree.remove
  split
  · exact ht.keepChildren _ _
  · exact ht

theorem Sound.graftAll (ht : t.Sound) (parent : Handle) (drafts : Forest NodeData) :
    (t.graftAll parent drafts).1.Sound := by
  unfold Tree.graftAll
  split
  · rename_i there
    obtain ⟨handles, next⟩ := Forest.handles_number drafts t.next
    have perm := Forest.handles_adjust_append ht.distinct (contains_iff.1 there)
      (drafts.number t.next).1
    have apart : ∀ a ∈ t.forest.handles, ∀ b ∈ (drafts.number t.next).1.handles, a ≠ b := by
      intro a ha b hb same
      rw [handles, List.mem_range'_1] at hb
      exact absurd (ht.below a ha) (Nat.not_lt.2 (same ▸ hb.1))
    refine ⟨perm.nodup_iff.2 (List.nodup_append.2 ⟨ht.distinct, ?_, apart⟩), fun a ha => ?_⟩
    · rw [handles]
      exact List.nodup_range'
    · show a < (drafts.number t.next).2
      rw [next]
      rcases List.mem_append.1 (perm.mem_iff.1 ha) with ha | ha
      · exact Nat.lt_add_right _ (ht.below a ha)
      · rw [handles, List.mem_range'_1] at ha
        exact ha.2
  · exact ht

theorem Sound.graft (ht : t.Sound) (parent : Handle) (draft : Draft) :
    (t.graft parent draft).1.Sound := ht.graftAll parent (.ofRose draft)

theorem Sound.replace (ht : t.Sound) (h : Handle) (drafts : Forest NodeData) :
    (t.replace h drafts).Sound := (ht.clear h).graftAll h drafts

theorem sound_single (kind : TreeKind) (data : NodeData) : (single kind data).Sound where
  distinct := List.nodup_singleton 0
  below h hh := by
    cases List.mem_singleton.1 hh
    exact Nat.zero_lt_one

theorem sound_empty (kind : TreeKind) : (empty kind).Sound := sound_single kind _

/-- A childless node added bears the next handle, and the others keep their data. -/
theorem Sound.data?_graft_leaf (ht : t.Sound) (there : t.contains parent) (d : NodeData) (x : Handle) :
    (t.graft parent ⟨d, .nil⟩).1.data? x = if x = t.next then some d else t.data? x := by
  have nodes : (t.graft parent ⟨d, .nil⟩).1.forest.preorder.Perm
      (t.forest.preorder ++ [⟨t.next, d⟩]) := by
    unfold Tree.graft Tree.graftAll
    rw [if_pos there]
    exact Forest.preorder_adjust_append ht.distinct (contains_iff.1 there) _
  refine Option.ext fun d' => ?_
  have outside : ∀ d', (⟨t.next, d'⟩ : Entry) ∉ t.forest.preorder := fun d' inside =>
    Nat.lt_irrefl _ (ht.below _ (List.mem_map_of_mem inside))
  rw [(ht.graft parent ⟨d, .nil⟩).data?_eq_some_iff, nodes.mem_iff, List.mem_append,
    List.mem_singleton]
  split
  · rename_i here
    subst here
    simp [outside, eq_comm]
  · rename_i other
    rw [ht.data?_eq_some_iff]
    simp [other]

/-- A change of what is below a node leaves its data. -/
theorem data?_adjust_self (t : Tree) (h : Handle) (f : Forest Entry → Forest Entry) :
    (t.adjust h f).data? h = t.data? h := by
  unfold data? find?
  rw [forest_adjust, Forest.find?_adjust, Option.map_map]
  rfl

theorem data?_graftAll_self (t : Tree) (h : Handle) (drafts : Forest NodeData) :
    (t.graftAll h drafts).1.data? h = t.data? h := by
  unfold graftAll
  split
  · exact data?_adjust_self t h _
  · rfl

/-- A node added is the last child. -/
theorem children_graft (there : t.contains parent) (draft : Draft) :
    (t.graft parent draft).1.children parent = t.children parent ++ [t.next] := by
  obtain ⟨r, hr⟩ := Option.isSome_iff_exists.1 there
  have found : (t.graft parent draft).1.find? parent =
      some ⟨r.label, r.children ++ ((Forest.ofRose draft).number t.next).1⟩ := by
    unfold graft graftAll
    rw [if_pos there]
    show (t.adjust parent _).forest.find? _ = _
    rw [forest_adjust, Forest.find?_adjust, show t.forest.find? (·.handle == parent) = some r from hr,
      Option.map_some]
  rw [children, below_of_find? found, Forest.rootLabels_append, List.map_append, children,
    below_of_find? hr]
  rfl

/-- A tree made of drafts holds just these drafts. -/
theorem map_data_ofDrafts (kind : TreeKind) (drafts : Forest NodeData) :
    (ofDrafts kind drafts).top.map (·.data) = ⟨{ key := rootKeyOf kind }, drafts⟩ := by
  have children : (ofDrafts kind drafts).top =
      ⟨⟨0, { key := rootKeyOf kind }⟩, (drafts.number 1).1⟩ := by
    cases kind <;> rfl
  rw [children, Rose.map, Forest.map_data_number]

theorem forall_data_ofDrafts {P : NodeData → Prop} {kind : TreeKind} {drafts : Forest NodeData} :
    (∀ e ∈ (ofDrafts kind drafts).entries, P e.data) ↔
      P { key := rootKeyOf kind } ∧ ∀ d ∈ drafts.preorder, P d := by
  rw [entries, ← Rose.everywhere_map_label (p := P) (h := Entry.data), map_data_ofDrafts,
    ← Forest.everywhere_label]
  rfl

end Tree

end LayeredConfig
