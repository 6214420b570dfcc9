import LayeredConfig.Proofs.Forest.Positions
import LayeredConfig.Proofs.Tree.Keys
import LayeredConfig.Proofs.Tree.Trails

/-!
# Where alignment paths lead in a tree that changes

* `KeepsOff d t t'` : a path that avoids `d` leads in `t'` where it leads in `t`, so clearing `d`
  (`Sound.keepsOff_clear`), removing it (`Sound.keepsOff_remove`) and writing new data over it
  (`Sound.keepsOff_modify`) concern the paths through `d` only;
* `Sound.leads_renamed` : a path through a renamed node leads on under the new name.
-/

namespace LayeredConfig

namespace Forest

theorem nodup_handles_of_mem_subtrees {f : Forest Entry} (distinct : f.handles.Nodup)
    {r : Rose Entry} (hr : r ∈ f.subtrees) : (ofRose r).handles.Nodup := by
  induction f with
  | nil => cases hr
  | cons a cs ss ihc ihs =>
    rw [subtrees, List.mem_cons, List.mem_append] at hr
    rcases hr with rfl | hr | hr
    · exact nodup_handles_of_mem_roots distinct List.mem_cons_self
    · exact ihc (nodup_handles_cons.1 distinct).2.1 hr
    · exact ihs (nodup_handles_cons.1 distinct).2.2.1 hr

end Forest

namespace Tree

variable {t t' t'' : Tree} {d h x y : Handle} {path pre rest : List String} {r s : Rose Entry}
  {key : String}

/-- The node that an alignment path leads to from the root. -/
def leads (t : Tree) (path : List String) : Option Handle :=
  (follow stepAligned t.top path).map (·.label.handle)

theorem findAligned?_root (t : Tree) (path : List String) :
    t.findAligned? t.root path = t.leads path := by
  unfold findAligned? walk? leads
  cases path with
  | nil => rfl
  | cons key path => rw [if_neg (by simp), find?_root, Option.bind_some]

@[simp] theorem leads_nil (t : Tree) : t.leads [] = some t.root := rfl

theorem top_mem_subtrees (t : Tree) : t.top ∈ t.forest.subtrees := List.mem_cons_self

/-! ## Paths that avoid a node -/

/-- Neither a path nor a first part of it leads to a node. -/
def Avoids (t : Tree) (d : Handle) (path : List String) : Prop :=
  ∀ pre, pre <+: path → t.leads pre ≠ some d

theorem Avoids.of_isPrefix (ha : t.Avoids d path) (hp : pre <+: path) : t.Avoids d pre :=
  fun _ inside => ha _ (inside.trans hp)

theorem leads_of_isPrefix (hx : t.leads path = some x) (hp : pre <+: path) :
    ∃ y, t.leads pre = some y := by
  obtain ⟨rest, rfl⟩ := hp
  obtain ⟨s, hs, -⟩ := Option.map_eq_some_iff.1 hx
  rw [follow_append] at hs
  obtain ⟨r, hr, -⟩ := Option.bind_eq_some_iff.1 hs
  exact ⟨r.label.handle, by rw [leads, hr, Option.map_some]⟩

/-- A path that avoids a node leads in the second tree where it leads in the first. -/
def KeepsOff (d : Handle) (t t' : Tree) : Prop :=
  ∀ path x, t.Avoids d path → t.leads path = some x → t'.leads path = some x

theorem KeepsOff.avoids (hk : KeepsOff d t t') (ha : t.Avoids d path)
    (hx : t.leads path = some x) : t'.Avoids d path := by
  intro pre hp there
  obtain ⟨y, hy⟩ := leads_of_isPrefix hx hp
  rw [hk pre y (ha.of_isPrefix hp) hy] at there
  exact ha pre hp (hy.trans there)

theorem KeepsOff.trans (hk : KeepsOff d t t') (hk' : KeepsOff d t' t'') : KeepsOff d t t'' :=
  fun path x ha hx => hk' path x (hk.avoids ha hx) (hk path x ha hx)

/-- A change that keeps every step between nodes other than `d`. -/
theorem keepsOff_of_step {T : Rose Entry → Rose Entry} (top : t'.top = T t.top)
    (handle : ∀ r, (T r).label.handle = r.label.handle)
    (step : ∀ r ∈ t.forest.subtrees, r.label.handle ≠ d → ∀ key s, stepAligned r key = some s →
      s.label.handle ≠ d → stepAligned (T r) key = some (T s)) : KeepsOff d t t' := by
  have walk : ∀ path, ∀ r ∈ t.forest.subtrees, ∀ s,
      (∀ pre y, pre <+: path → follow stepAligned r pre = some y → y.label.handle ≠ d) →
        follow stepAligned r path = some s → follow stepAligned (T r) path = some (T s) := by
    intro path
    induction path with
    | nil =>
      intro r _ s _ hs
      cases hs
      rfl
    | cons key path ih =>
      intro r hr s avoids hs
      obtain ⟨c, hc, rest⟩ := Option.bind_eq_some_iff.1 hs
      have other := avoids [] r (List.nil_prefix) rfl
      have next : c.label.handle ≠ d :=
        avoids [key] c ⟨path, rfl⟩ (by rw [follow, hc]; rfl)
      rw [follow, step r hr other key c hc next, Option.bind_some]
      refine ih c (mem_subtrees_of_step hr hc) s (fun pre y hp hy => ?_) rest
      exact avoids (key :: pre) y (List.cons_prefix_cons.2 ⟨rfl, hp⟩) (by rw [follow, hc]; exact hy)
  intro path x ha hx
  obtain ⟨s, hs, rfl⟩ := Option.map_eq_some_iff.1 hx
  have there := walk path t.top t.top_mem_subtrees s (fun pre y hp hy same => ha pre hp (by
    rw [leads, hy, Option.map_some, same])) hs
  rw [leads, top, there, Option.map_some, handle]

/-! ## Nodes taken away -/

theorem stepAligned_adjust {f : Forest Entry → Forest Entry} (other : r.label.handle ≠ h)
    (key : String) :
    stepAligned (r.adjust (·.handle == h) f) key =
      (stepAligned r key).map (Rose.adjust (·.handle == h) f) := by
  have label : (r.adjust (·.handle == h) f).label = r.label := rfl
  have children : (r.adjust (·.handle == h) f).children = r.children.adjust (·.handle == h) f :=
    if_neg (by simpa using other)
  unfold stepAligned stepKey
  rw [label, children]
  split
  · rw [Forest.roots_adjust, List.head?_map]
  · rw [Forest.findRoot?_eq_find?, Forest.findRoot?_eq_find?, Forest.roots_adjust, List.find?_map]
    rfl

theorem keepsOff_clear (t : Tree) (d : Handle) : KeepsOff d t (t.clear d) :=
  keepsOff_of_step (T := Rose.adjust (·.handle == d) fun _ => .nil) rfl (fun _ => rfl)
    fun r _ other key s hs _ => by rw [stepAligned_adjust other, hs, Option.map_some]

/-- Nothing is below itself. -/
theorem Sound.not_mem_children (ht : t.Sound) (hr : r ∈ t.forest.subtrees)
    (hs : s ∈ r.children.roots) : r.label.handle ∉ (Forest.ofRose s).handles := by
  have outside : r.label.handle ∉ r.children.handles :=
    (Forest.nodup_handles_cons.1 (Forest.nodup_handles_of_mem_subtrees ht.distinct hr)).1.1
  exact fun inside => outside (Forest.mem_handles_iff_roots.2 ⟨s, hs, inside⟩)

/-- A child that is no item is removed. -/
theorem Sound.keepsOff_remove (ht : t.Sound) {above : Handle} (hp : t.parent? d = some above)
    (object : t.isArray above = false) : KeepsOff d t (t.remove d).1 := by
  have removed : (t.remove d).1.top =
      t.top.adjust (·.handle == above) fun f => f.filterRoots (·.handle != d) := by
    unfold Tree.remove
    rw [hp]
    dsimp only
    unfold Tree.keepChildren
    rw [object]
    rfl
  refine keepsOff_of_step removed (fun _ => rfl) fun r hr _ key s hs other => ?_
  by_cases here : r.label.handle = above
  · have child := stepAligned_mem hs
    have below : s.adjust (·.handle == above) (fun f => f.filterRoots (·.handle != d)) = s :=
      Rose.adjust_of_not_mem (here ▸ ht.not_mem_children hr child) _
    have children : (r.adjust (·.handle == above) fun f => f.filterRoots (·.handle != d)).children =
        r.children.filterRoots (·.handle != d) := if_pos (by simpa using here)
    have label : (r.adjust (·.handle == above) fun f => f.filterRoots (·.handle != d)).label =
        r.label := rfl
    have type : r.label.data.type ≠ .array := by
      rw [← here, isArray_of_find? (ht.find?_of_mem hr)] at object
      simpa using object
    unfold stepAligned stepKey at hs ⊢
    rw [if_neg fun array => type array.2, Forest.findRoot?_eq_find?] at hs
    rw [label, children, below, if_neg fun array => type array.2, Forest.findRoot?_eq_find?,
      Forest.roots_filterRoots, List.find?_filter]
    rw [List.find?_eq_some_iff_append] at hs ⊢
    obtain ⟨found, before, after, all, none⟩ := hs
    refine ⟨by simpa [other] using found, before, after, all, fun a ha => ?_⟩
    have earlier : a.label.data.key ≠ key := by simpa using none a ha
    simp [earlier]
  · rw [stepAligned_adjust here, hs, Option.map_some]

/-! ## Nodes written over -/

section Written

variable {old new : NodeData} {p : Handle}

theorem Sound.parent?_of_roots (ht : t.Sound) (hr : r ∈ t.forest.subtrees)
    (hs : s ∈ r.children.roots) : t.parent? s.label.handle = some r.label.handle :=
  ht.parent?_of_child hr (Forest.label_mem_rootLabels hs)

/-- No child of the parent bears a key that is free. -/
theorem key_ne_of_child? (ht : t.Sound) (hr : r ∈ t.forest.subtrees)
    (free : t.child? r.label.handle key = none) (hs : s ∈ r.children.roots) :
    s.label.data.key ≠ key :=
  (child?_eq_none_iff (ht.find?_of_mem hr)).1 free _ (Forest.label_mem_rootLabels hs)

/-- A node gets new data, under its key or one that is free. -/
theorem Sound.keepsOff_modify (ht : t.Sound) (hd : t.data? d = some old)
    (free : new.key = old.key ∨ ∀ p, t.parent? d = some p → t.child? p new.key = none) :
    KeepsOff d t (t.modify d fun _ => new) := by
  refine keepsOff_of_step (top_modify t d new) (fun r => handle_written d new r.label)
    fun r hr outside key s hs other => ?_
  have child := stepAligned_mem hs
  have label : (r.map (written d new)).label = r.label := written_of_ne outside
  unfold stepAligned stepKey at hs ⊢
  rw [label, show (r.map (written d new)).children = r.children.map (written d new) from rfl,
    Forest.roots_map, List.head?_map]
  split at hs
  · rename_i first
    rw [if_pos first, hs, Option.map_some]
  · rename_i keyed
    rw [if_neg keyed, Forest.findRoot?_eq_find?, Forest.roots_map, List.find?_map]
    rw [Forest.findRoot?_eq_find?] at hs
    refine Option.map_eq_some_iff.2 ⟨s, ?_, rfl⟩
    rw [List.find?_eq_some_iff_append] at hs ⊢
    obtain ⟨found, before, after, all, none⟩ := hs
    have same : s.label.data.key = key := by simpa using found
    refine ⟨?_, before, after, all, fun a ha => ?_⟩
    · rw [Function.comp_apply, show (s.map (written d new)).label = s.label from written_of_ne other]
      exact found
    · have inside : a ∈ r.children.roots := all ▸ List.mem_append_left _ ha
      have earlier : a.label.data.key ≠ key := by simpa using none a ha
      rw [Function.comp_apply, show (a.map (written d new)).label = written d new a.label from rfl]
      by_cases here : a.label.handle = d
      · -- `d` stands before `s`, under a key that is not that of `s`
        have differs : new.key ≠ key := by
          rcases free with kept | free
          · have data := ht.data?_of_mem (Forest.mem_preorder_of_mem_subtrees
              (Forest.mem_subtrees_of_children hr
                (Forest.mem_subtrees_of_mem_roots inside (Or.inl rfl))) List.mem_cons_self)
            rw [here, hd] at data
            rwa [kept, Option.some.inj data]
          · have none := free _ (here ▸ ht.parent?_of_roots hr inside)
            exact fun taken => key_ne_of_child? ht hr none child (same.trans taken.symm)
        rw [written_self here]
        simpa using differs
      · rw [written_of_ne here]
        exact none a ha

theorem follow_written (type : (written d new r.label).data.type = r.label.data.type)
    (below : d ∉ r.children.handles) (path : List String) :
    follow stepAligned (r.map (written d new)) path =
      (follow stepAligned r path).map (Rose.map (written d new)) := by
  induction path generalizing r with
  | nil => rfl
  | cons key path ih =>
    have apart : ∀ s ∈ r.children.roots, s.label.handle ≠ d ∧ d ∉ s.children.handles := by
      intro s hs
      have outside : d ∉ (Forest.ofRose s).handles := fun inside =>
        below (Forest.mem_handles_iff_roots.2 ⟨s, hs, inside⟩)
      rw [Forest.ofRose, Forest.handles_cons, List.mem_cons, not_or] at outside
      exact ⟨Ne.symm outside.1, fun inside => outside.2 (List.mem_append_left _ inside)⟩
    rw [follow, follow, stepAligned_map type fun s hs => by rw [written_of_ne (apart s hs).1]]
    cases step : stepAligned r key with
    | none => rfl
    | some s =>
      obtain ⟨other, outside⟩ := apart s (stepAligned_mem step)
      exact ih (by rw [written_of_ne other]) outside

/-- The path to the parent of a node avoids the node. -/
theorem Sound.avoids_of_child (ht : t.Sound) (hr : follow stepAligned t.top path = some r)
    (hs : s ∈ r.children.roots) : t.Avoids s.label.handle path := by
  rintro pre ⟨rest, rfl⟩ there
  have child : s ∈ t.forest.subtrees := Forest.mem_subtrees_of_children
    (mem_subtrees_of_follow t.top_mem_subtrees hr) (Forest.mem_subtrees_of_mem_roots hs (Or.inl rfl))
  obtain ⟨u, hu, same⟩ := Option.map_eq_some_iff.1 there
  have found := ht.find?_of_mem (mem_subtrees_of_follow t.top_mem_subtrees hu)
  rw [same, ht.find?_of_mem child] at found
  cases found
  rw [follow_append, hu, Option.bind_some] at hr
  -- `s` would be below itself
  have inside : s ∈ s.children.subtrees := by
    have below : r ∈ (Forest.ofRose s).subtrees := mem_subtrees_of_follow List.mem_cons_self hr
    rw [Forest.ofRose, Forest.subtrees, Forest.subtrees, List.append_nil, List.mem_cons] at below
    have child := Forest.mem_subtrees_of_mem_roots hs (Or.inl rfl)
    rcases below with rfl | below
    · exact child
    · exact Forest.mem_subtrees_of_children below child
  have distinct := Forest.nodup_handles_of_mem_subtrees ht.distinct child
  exact (Forest.nodup_handles_cons.1 distinct).1.1 (Forest.mem_handles_of_mem_subtrees inside)

/-- The path to a child of an object ends with the key of the child. -/
theorem Sound.key_of_leads (ht : t.Sound) (hp : t.parent? d = some p) (object : t.isArray p = false)
    (hd : t.data? d = some old) (here : t.leads (path ++ [key]) = some d) : key = old.key := by
  obtain ⟨s, hs, rfl⟩ := Option.map_eq_some_iff.1 here
  rw [follow_concat] at hs
  obtain ⟨r, hr, step⟩ := Option.bind_eq_some_iff.1 hs
  have inside : r ∈ t.forest.subtrees := mem_subtrees_of_follow t.top_mem_subtrees hr
  cases hp.symm.trans (ht.parent?_of_roots inside (stepAligned_mem step))
  rw [isArray_of_find? (ht.find?_of_mem inside)] at object
  rw [ht.data?_of_mem (Forest.mem_preorder_of_mem_subtrees (mem_subtrees_of_step inside step)
    List.mem_cons_self)] at hd
  cases hd
  unfold stepAligned at step
  rw [if_neg fun array => by simp [array.2] at object] at step
  exact (key_of_findRoot? step).symm

/-- A path that avoids the node leads to the node of the other tree that has the same handle. -/
theorem Sound.follow_modify (ht : t.Sound) (hd : t.data? d = some old)
    (free : new.key = old.key ∨ ∀ p, t.parent? d = some p → t.child? p new.key = none)
    (avoids : t.Avoids d path) (hr : follow stepAligned t.top path = some r) :
    follow stepAligned (t.modify d fun _ => new).top path = some (r.map (written d new)) := by
  have leads := ht.keepsOff_modify hd free path r.label.handle avoids
    (by rw [leads, hr, Option.map_some])
  obtain ⟨r', hr', same⟩ := Option.map_eq_some_iff.1 leads
  have found := (ht.modify d fun _ => new).find?_of_mem
    (mem_subtrees_of_follow (top_mem_subtrees _) hr')
  have mapped : (t.modify d fun _ => new).find? r.label.handle =
      (t.find? r.label.handle).map (Rose.map (written d new)) :=
    Forest.find?_map (written d new) (fun e => by rw [handle_written]) t.forest
  rw [same, mapped, ht.find?_of_mem (mem_subtrees_of_follow t.top_mem_subtrees hr)] at found
  rw [hr', ← Option.some.inj found]

/-- An object has its renamed child under the new key, and no other. -/
theorem Sound.stepAligned_renamed (ht : t.Sound) (hr : r ∈ t.forest.subtrees)
    (object : r.label.data.type ≠ .array) (hs : s ∈ r.children.roots)
    (free : t.child? r.label.handle new.key = none) :
    stepAligned (r.map (written s.label.handle new)) new.key =
      some (s.map (written s.label.handle new)) := by
  have other : r.label.handle ≠ s.label.handle := fun same =>
    ht.not_mem_children hr hs (same ▸ List.mem_cons_self)
  have found : ∀ a ∈ r.children.roots,
      (written s.label.handle new a.label).data.key = new.key → a = s := by
    intro a ha same
    have named : ∀ x ∈ r.children.roots, t.find? x.label.handle = some x := fun x hx =>
      ht.find?_of_mem (Forest.mem_subtrees_of_children hr
        (Forest.mem_subtrees_of_mem_roots hx (Or.inl rfl)))
    by_cases this : a.label.handle = s.label.handle
    · have one := named a ha
      rw [this, named s hs] at one
      exact (Option.some.inj one).symm
    · rw [written_of_ne this] at same
      exact absurd same (key_ne_of_child? ht hr free ha)
  unfold stepAligned stepKey
  rw [show (r.map (written s.label.handle new)).label = r.label from written_of_ne other,
    show (r.map (written s.label.handle new)).children =
      r.children.map (written s.label.handle new) from rfl,
    if_neg fun h => object h.2, Forest.findRoot?_eq_find?, Forest.roots_map, List.find?_map]
  refine Option.map_eq_some_iff.2 ⟨s, ?_, rfl⟩
  cases search : r.children.roots.find? ((fun r => r.label.data.key == new.key) ∘
      Rose.map (written s.label.handle new)) with
  | none =>
    refine absurd ?_ (List.find?_eq_none.1 search s hs)
    show ((written s.label.handle new s.label).data.key == new.key) = true
    rw [written_self rfl]
    exact beq_self_eq_true _
  | some a =>
    have key := List.find?_some search
    rw [found a (List.mem_of_find?_eq_some search) (eq_of_beq key)]

/-- A path through a node leads on under the new key of the node. -/
theorem Sound.leads_renamed (ht : t.Sound) (hp : t.parent? d = some p)
    (object : t.isArray p = false) (hd : t.data? d = some old) (type : new.type = old.type)
    (free : t.child? p new.key = none) (here : t.leads (path ++ [key]) = some d)
    (rest : List String) :
    (t.modify d fun _ => new).leads (path ++ new.key :: rest) = t.leads (path ++ key :: rest) := by
  obtain ⟨s, hs, rfl⟩ := Option.map_eq_some_iff.1 here
  rw [follow_concat] at hs
  obtain ⟨r, hr, step⟩ := Option.bind_eq_some_iff.1 hs
  have inside : r ∈ t.forest.subtrees := mem_subtrees_of_follow t.top_mem_subtrees hr
  have child := stepAligned_mem step
  have below := mem_subtrees_of_step inside step
  cases hp.symm.trans (ht.parent?_of_roots inside child)
  have array : r.label.data.type ≠ .array := by
    rw [isArray_of_find? (ht.find?_of_mem inside)] at object
    simpa using object
  have data : s.label.data = old := Option.some.inj ((ht.data?_of_mem
    (Forest.mem_preorder_of_mem_subtrees below List.mem_cons_self)).symm.trans hd)
  have above := ht.follow_modify hd (Or.inr fun q hq => by cases hp.symm.trans hq; exact free)
    (ht.avoids_of_child hr child) hr
  have outside : s.label.handle ∉ s.children.handles :=
    (Forest.nodup_handles_cons.1 (Forest.nodup_handles_of_mem_subtrees ht.distinct below)).1.1
  have kept : (written s.label.handle new s.label).data.type = s.label.data.type := by
    rw [written_self rfl, type, data]
  unfold leads
  rw [follow_append, above, follow_append, hr, Option.bind_some, Option.bind_some, follow, follow,
    ht.stepAligned_renamed inside array child free, step, Option.bind_some, Option.bind_some,
    follow_written kept outside, Option.map_map]
  exact Option.map_congr fun u _ => handle_written _ _ _

end Written

end Tree

end LayeredConfig
