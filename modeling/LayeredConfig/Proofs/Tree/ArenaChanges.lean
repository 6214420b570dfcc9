import LayeredConfig.Proofs.Tree.Arena

/-!
# Changes of an arena

Each change of an arena that represents a tree is the change of that tree: the new arena represents
the new tree, and the answers are the same. `Represents.perform` puts the changes together, and
`Represents.run` is the induction over a run.
-/

namespace LayeredConfig.Arena

variable {a a' b : Arena} {h x : Handle} {t : Tree} {r : Rose Entry}

/-! ## Data -/

theorem holds_map {parent : Option Handle} {f : Forest Entry} {g : Entry → Entry}
    (hf : a.Holds parent f) (handles : ∀ e, (g e).handle = e.handle)
    (nodes : ∀ e ∈ f.preorder, ∀ n, a.node? e.handle = some n → n.data = e.data →
      a'.node? e.handle = some { n with data := (g e).data }) :
    a'.Holds parent (f.map g) := by
  induction f generalizing parent with
  | nil => trivial
  | cons e cs ss ihc ihs =>
    obtain ⟨he, hcs, hss⟩ := hf
    simp only [Forest.preorder, List.forall_mem_cons, List.forall_mem_append] at nodes
    obtain ⟨ne, ncs, nss⟩ := nodes
    refine ⟨?_, ?_, ihs hss nss⟩
    · rw [handles, ne _ he rfl, Forest.rootLabels_map, List.map_map]
      simp only [Function.comp_def, handles]
    · rw [handles]
      exact ihc hcs ncs

theorem Represents.modify (ha : a.Represents t) (h : Handle) (f : NodeData → NodeData) :
    (a.modify h f).Represents (t.modify h f) where
  kind := ha.kind
  root := by
    rw [show (a.modify h f).root = a.root from rfl, ha.root]
    unfold Tree.root Tree.modify Rose.relabel Rose.map
    dsimp only
    split <;> rfl
  next := (kept_modify a h f).length.trans ha.next
  holds := by
    rw [Tree.forest_modify]
    refine holds_map ha.holds (fun e => by split <;> rfl) fun e _ n hn same => ?_
    rw [node?_modify, hn]
    by_cases here : e.handle = h
    · rw [if_pos here, if_pos (by simpa using here), Option.map_some, same]
    · rw [if_neg here, if_neg (by simpa using here), ← same]
  only x hx := by
    rw [Tree.forest_modify, Forest.handles_map fun e => by split <;> rfl]
    refine ha.only x ?_
    rw [contains, node?_modify] at hx
    split at hx
    · rwa [Option.isSome_map] at hx
    · exact hx
  sound := ha.sound.modify h f

/-! ## New nodes -/

/-- The nodes that grafting leaves and the ones that it adds below a node `p` with the links `n`. -/
structure Grafted (a b : Arena) (p : Handle) (n : Link) (added : Forest Entry) (next : Handle) :
    Prop where
  kind : b.kind = a.kind
  root : b.root = a.root
  length : b.slots.length = next
  holds : b.Holds (some p) added
  top : b.node? p = some { n with children := n.children ++ added.rootLabels.map (·.handle) }
  other : ∀ y, y < a.slots.length → y ≠ p → b.node? y = a.node? y

/-- The arena with a new leaf as the last child of a node. -/
def withLeaf (a : Arena) (p : Handle) (d : NodeData) : Arena :=
  (a.insert ⟨d, some p, []⟩).update p fun n => { n with children := n.children ++ [a.slots.length] }

theorem add_of_contains {p : Handle} (hp : a.contains p) (d : NodeData) :
    a.add p d = (a.withLeaf p d, some a.slots.length) := by
  rw [add, if_pos hp]
  rfl

theorem add_of_not_contains {p : Handle} (hp : ¬a.contains p) (d : NodeData) :
    a.add p d = (a, none) := by
  rw [add, if_neg hp]

theorem length_withLeaf (p : Handle) (d : NodeData) :
    (a.withLeaf p d).slots.length = a.slots.length + 1 := by
  simp [withLeaf, insert, update]

theorem lt_of_node? {p : Handle} {n : Link} (hp : a.node? p = some n) : p < a.slots.length :=
  lt_of_contains (by rw [contains, hp]; rfl)

theorem node?_withLeaf {p : Handle} {n : Link} (hp : a.node? p = some n) (d : NodeData) (y : Handle) :
    (a.withLeaf p d).node? y =
      if y = p then some { n with children := n.children ++ [a.slots.length] }
      else if y = a.slots.length then some ⟨d, some p, []⟩ else a.node? y := by
  rw [withLeaf, node?_update, node?_insert]
  by_cases same : y = p
  · subst same
    rw [if_pos rfl, if_pos rfl, if_neg (Nat.ne_of_lt (lt_of_node? hp)), hp, Option.map_some]
  · rw [if_neg same, if_neg same]

/-- A leaf is added, then what is below it, then what follows it. -/
theorem Grafted.cons {p : Handle} {n : Link} (hp : a.node? p = some n) {d : NodeData}
    {cs : Forest NodeData} {after : Forest Entry} {next : Handle}
    (below : Grafted (a.withLeaf p d) b a.slots.length ⟨d, some p, []⟩
      (cs.number (a.slots.length + 1)).1 (cs.number (a.slots.length + 1)).2)
    (rest : Grafted b a' p { n with children := n.children ++ [a.slots.length] } after next) :
    Grafted a a' p n (.cons ⟨a.slots.length, d⟩ (cs.number (a.slots.length + 1)).1 after) next := by
  have inside := lt_of_node? hp
  obtain ⟨handles, bound⟩ := Forest.handles_number cs (a.slots.length + 1)
  have bound' : a.slots.length < (cs.number (a.slots.length + 1)).2 :=
    bound ▸ Nat.lt_of_lt_of_le (Nat.lt_succ_self _) (Nat.le_add_right _ _)
  have later : ∀ y, a.slots.length ≤ y → y < (cs.number (a.slots.length + 1)).2 →
      a'.node? y = b.node? y := fun y hy hy' =>
    rest.other y (below.length ▸ hy') (Nat.ne_of_gt (Nat.lt_of_lt_of_le inside hy))
  exact
    { kind := rest.kind.trans below.kind
      root := rest.root.trans below.root
      length := rest.length
      holds := by
        refine ⟨?_, below.holds.congr fun y hy => later y ?_ ?_, rest.holds⟩
        · rw [later _ (Nat.le_refl _) bound', below.top]
          rfl
        · rw [handles, List.mem_range'_1] at hy
          exact Nat.le_of_succ_le hy.1
        · rw [handles, List.mem_range'_1] at hy
          exact bound ▸ hy.2
      top := by
        rw [rest.top]
        simp only [Forest.rootLabels, List.map_cons, List.append_assoc, List.singleton_append]
      other := fun y hy hy' => by
        rw [rest.other y (below.length ▸ Nat.lt_trans hy bound') hy',
          below.other y (length_withLeaf p d ▸ Nat.lt_succ_of_lt hy) (Nat.ne_of_lt hy),
          node?_withLeaf hp, if_neg hy', if_neg (Nat.ne_of_lt hy)] }

/-- Grafting adds the nodes that are numbered in pre-order, with the links of the drafts. -/
theorem grafted_graftAll {p : Handle} {n : Link} (hp : a.node? p = some n)
    (drafts : Forest NodeData) :
    Grafted a (graftAll p drafts a) p n (drafts.number a.slots.length).1
      (drafts.number a.slots.length).2 := by
  induction drafts generalizing a p n with
  | nil =>
    exact
      { kind := rfl
        root := rfl
        length := rfl
        holds := trivial
        top := by
          rw [graftAll, Forest.number, Forest.rootLabels, List.map_nil, List.append_nil]
          exact hp
        other := fun _ _ _ => rfl }
  | cons d cs ss ihc ihs =>
    have inside := lt_of_node? hp
    have leaf : (a.withLeaf p d).node? a.slots.length = some ⟨d, some p, []⟩ := by
      rw [node?_withLeaf hp, if_neg (Nat.ne_of_gt inside), if_pos rfl]
    have below := ihc leaf
    rw [length_withLeaf] at below
    have above : (graftAll a.slots.length cs (a.withLeaf p d)).node? p =
        some { n with children := n.children ++ [a.slots.length] } := by
      rw [below.other p (length_withLeaf p d ▸ Nat.lt_succ_of_lt inside) (Nat.ne_of_lt inside),
        node?_withLeaf hp, if_pos rfl]
    have rest := ihs above
    rw [below.length] at rest
    rw [graftAll, add_of_contains (by rw [contains, hp]; rfl), Forest.number]
    exact below.cons hp rest

theorem graftAll_of_not_contains {p : Handle} (hp : ¬a.contains p) (drafts : Forest NodeData) :
    graftAll p drafts a = a := by
  induction drafts with
  | nil => rfl
  | cons d cs ss _ ih =>
    rw [graftAll, add_of_not_contains hp]
    exact ih

theorem Represents.graftAll (ha : a.Represents t) (p : Handle) (drafts : Forest NodeData) :
    (Arena.graftAll p drafts a).Represents (t.graftAll p drafts).1 := by
  have sound := ha.sound.graftAll p drafts
  unfold Tree.graftAll at sound ⊢
  by_cases there : t.contains p
  · rw [if_pos there] at sound ⊢
    obtain ⟨r, hr⟩ := Option.isSome_iff_exists.1 there
    obtain ⟨q, node⟩ := ha.node hr
    have grafted := grafted_graftAll node drafts
    obtain ⟨handles, next⟩ := Forest.handles_number drafts a.slots.length
    rw [← ha.next] at sound ⊢
    have fresh : ∀ y, a.contains y → y < a.slots.length := fun _ => lt_of_contains
    refine ha.adjust hr grafted.kind grafted.root grafted.length (fun n hn => ?_) ?_
      (fun y hy hy' _ => grafted.other y (fresh y hy) hy') (fun y hy => ?_) sound
    · rw [hn] at node
      cases node
      rw [grafted.top, Forest.rootLabels_append, List.map_append]
    · refine holds_append.2 ⟨(ha.below hr).congr fun y hy => ?_, grafted.holds⟩
      have inside := (ha.below hr).contains hy
      refine grafted.other y (fresh y inside) ?_
      rintro rfl
      exact (Forest.handle_not_mem_below ha.sound.distinct (Tree.find?_mem hr)).1
        (Tree.find?_handle hr ▸ hy)
    · rw [Forest.handles_append, List.mem_append, handles, List.mem_range'_1]
      have bound := lt_of_contains hy
      rw [grafted.length, next] at bound
      by_cases old : y < a.slots.length
      · by_cases below : y ∈ r.children.handles
        · exact Or.inr (Or.inl below)
        · refine Or.inl ⟨?_, below⟩
          by_cases here : y = p
          · rw [here, ha.contains_eq]
            exact there
          · rwa [contains, grafted.other y old here] at hy
      · exact Or.inr (Or.inr ⟨Nat.not_lt.1 old, bound⟩)
  · rw [if_neg there]
    rw [graftAll_of_not_contains (by rwa [ha.contains_eq])]
    exact ha

/-- Grafting a draft is grafting a forest of one. -/
theorem graft_eq (a : Arena) (p : Handle) (draft : Draft) :
    a.graft p draft = (Arena.graftAll p (.ofRose draft) a,
      if a.contains p then some a.slots.length else none) := by
  unfold graft
  rw [Forest.ofRose, Arena.graftAll]
  by_cases there : a.contains p
  · rw [add_of_contains there, if_pos there]
    rfl
  · rw [add_of_not_contains there, if_neg there]
    rfl

theorem add_eq_graft (a : Arena) (p : Handle) (d : NodeData) : a.add p d = a.graft p ⟨d, .nil⟩ := by
  unfold graft
  by_cases there : a.contains p
  · rw [add_of_contains there]
    rfl
  · rw [add_of_not_contains there]

/-- A graft answers with the handle of the draft's top, as the graft of the tree does. -/
theorem Represents.graft (ha : a.Represents t) (p : Handle) (draft : Draft) :
    (a.graft p draft).1.Represents (t.graft p draft).1 ∧
      (a.graft p draft).2 = (t.graft p draft).2 := by
  rw [graft_eq]
  refine ⟨ha.graftAll p (.ofRose draft), ?_⟩
  unfold Tree.graft Tree.graftAll
  rw [ha.contains_eq, ha.next]
  cases t.contains p <;> rfl

theorem Represents.add (ha : a.Represents t) (p : Handle) (d : NodeData) :
    (a.add p d).1.Represents (t.add p d).1 ∧ (a.add p d).2 = (t.add p d).2 := by
  rw [add_eq_graft]
  exact ha.graft p ⟨d, .nil⟩

/-! ## Nodes removed -/

theorem update_of_missing (missing : a.node? h = none) (f : Link → Link) (x : Handle) :
    (a.update h f).node? x = a.node? x := by
  rw [node?_update]
  split
  · rename_i same
    rw [same, missing, Option.map_none]
  · rfl

theorem holds_filterRoots {parent : Option Handle} {f : Forest Entry} (hf : a.Holds parent f)
    (keep : Entry → Bool) : a.Holds parent (f.filterRoots keep) := by
  induction f with
  | nil => trivial
  | cons e cs ss _ ih =>
    rw [Forest.filterRoots]
    split
    · exact ⟨hf.1, hf.2.1, ih hf.2.2⟩
    · exact ih hf.2.2

namespace Represents

variable (ha : a.Represents t) (hr : t.find? h = some r)

include ha hr

theorem not_mem_below : h ∉ r.children.handles ∧ r.children.handles.Nodup := by
  have below := Forest.handle_not_mem_below ha.sound.distinct (Tree.find?_mem hr)
  rwa [Tree.find?_handle hr] at below

/-- What the slots hold once some of the children of a node are freed. -/
theorem node?_freeAll (doomed : Entry → Bool) (x : Handle) :
    (a.freeAll ((r.children.rootLabels.filter doomed).map (·.handle))).node? x =
      if x ∈ (r.children.filterRoots doomed).handles then none else a.node? x := by
  have distinct := (Forest.handles_filterRoots_sublist doomed r.children).nodup
    (ha.not_mem_below hr).2
  have deep : (r.children.filterRoots doomed).depth ≤ a.slots.length := by
    rw [ha.next]
    have fewer := Forest.depth_filterRoots_le doomed r.children
    have below := Forest.depth_lt_of_mem_subtrees (Tree.find?_mem hr)
    have all := ha.sound.depth_le
    omega
  rw [freeAll, ← Forest.rootLabels_filterRoots]
  exact node?_foldl_free (holds_filterRoots (ha.below hr) doomed) distinct deep x

theorem clear_of_find? : (a.clear h).Represents (t.clear h) := by
  have children : a.children h = (r.children.rootLabels.filter fun _ => true).map (·.handle) := by
    obtain ⟨p, node⟩ := ha.node hr
    rw [Arena.children, node, Option.map_some, Option.getD_some, List.filter_true]
  have all : r.children.filterRoots (fun _ => true) = r.children := by
    refine Forest.roots_injective ?_
    rw [Forest.roots_filterRoots, List.filter_true]
  have nodes := ha.node?_freeAll hr fun _ => true
  rw [← children, all] at nodes
  obtain ⟨outside, -⟩ := ha.not_mem_below hr
  have kept := (kept_freeAll a (a.children h)).trans
    (kept_update _ h fun n => { n with children := [] })
  refine ha.adjust (g := fun _ => .nil) hr kept.kind kept.root (kept.length.trans ha.next)
    (fun n hn => ?_) trivial (fun y hy hy' below => ?_) (fun y hy => ?_) (ha.sound.clear h)
  · rw [clear, node?_update, if_pos rfl, nodes, if_neg outside, hn]
    rfl
  · rw [clear, node?_update, if_neg hy', nodes, if_neg below]
  · refine Or.inl ?_
    by_cases below : y ∈ r.children.handles
    · have here : y ≠ h := fun same => outside (same ▸ below)
      rw [contains, clear, node?_update, if_neg here, nodes, if_pos below] at hy
      cases hy
    · refine ⟨?_, below⟩
      rw [contains, clear, node?_update, nodes, if_neg below] at hy
      split at hy
      · rwa [Option.isSome_map] at hy
      · exact hy

end Represents

theorem Represents.clear (ha : a.Represents t) (h : Handle) : (a.clear h).Represents (t.clear h) := by
  cases hr : t.find? h with
  | some r => exact ha.clear_of_find? hr
  | none =>
    have missing := ha.node?_eq_none hr
    have same : t.clear h = t := Tree.ext_forest (Forest.adjust_of_find?_eq_none hr) rfl rfl
    have none : a.freeAll (a.children h) = a := by
      rw [Arena.children, missing]
      rfl
    rw [same, Arena.clear, none]
    exact ha.of_node? (kept_update a h _) (update_of_missing missing _)

theorem Represents.replace (ha : a.Represents t) (h : Handle) (drafts : Forest NodeData) :
    (a.replace h drafts).Represents (t.replace h drafts) := (ha.clear h).graftAll h drafts

/-! ## Children removed -/

/-- The children of a node are keyed by their positions one after the other. -/
theorem holds_renumber {parent : Option Handle} {f : Forest Entry} (hf : a.Holds parent f)
    (distinct : f.handles.Nodup) (first : Nat) :
    let b := ((f.rootLabels.map (·.handle)).zipIdx first).foldl (fun a (c, position) =>
      a.modify c fun d => { d with key := itemKey position }) a
    b.Holds parent (f.mapRoots (fun position e =>
        { e with data := { e.data with key := itemKey position } }) first) ∧
      (∀ x, x ∉ f.rootLabels.map (·.handle) → b.node? x = a.node? x) ∧
      ∀ x, b.contains x = a.contains x := by
  induction f generalizing a first with
  | nil => exact ⟨trivial, fun _ _ => rfl, fun _ => rfl⟩
  | cons e cs ss _ ih =>
    obtain ⟨he, hcs, hss⟩ := hf
    obtain ⟨outside, -, dss, apart⟩ := Forest.nodup_handles_cons.1 distinct
    have roots : ∀ y ∈ ss.rootLabels.map (·.handle), y ∈ ss.handles := by
      intro y hy
      obtain ⟨x, hx, rfl⟩ := List.mem_map.1 hy
      exact List.mem_map_of_mem (Forest.mem_preorder_of_mem_rootLabels hx)
    let a₁ := a.modify e.handle fun d => { d with key := itemKey first }
    have node₁ := node?_modify a e.handle fun d => { d with key := itemKey first }
    have hss₁ : a₁.Holds parent ss := hss.congr fun y hy => by
      rw [node₁, if_neg]
      rintro rfl
      exact outside.2 hy
    obtain ⟨holds, other, live⟩ := ih hss₁ dss (first + 1)
    simp only [Forest.rootLabels, List.map_cons, List.zipIdx_cons, List.foldl_cons]
    refine ⟨⟨?_, ?_, holds⟩, fun x hx => ?_, fun x => ?_⟩
    · rw [other _ fun inside => outside.2 (roots _ inside), node₁, if_pos rfl, he]
      rfl
    · refine hcs.congr fun y hy => ?_
      rw [other y fun inside => apart hy (roots y inside), node₁, if_neg]
      rintro rfl
      exact outside.1 hy
    · rw [List.mem_cons, not_or] at hx
      rw [other x hx.2, node₁, if_neg hx.1]
    · rw [live, contains, node₁, contains]
      split
      · rw [Option.isSome_map]
      · rfl

theorem map_handle_mapRoots {g : Nat → Entry → Entry} (hg : ∀ i e, (g i e).handle = e.handle)
    (f : Forest Entry) (first : Nat) :
    (f.mapRoots g first).rootLabels.map (·.handle) = f.rootLabels.map (·.handle) := by
  induction f generalizing first with
  | nil => rfl
  | cons e cs ss _ ih =>
    rw [Forest.mapRoots, Forest.rootLabels, List.map_cons, hg, ih, Forest.rootLabels, List.map_cons]

/-- Of the children those that are not removed are left. -/
theorem filter_not_doomed {f : Forest Entry} (distinct : f.handles.Nodup) (keep : Entry → Bool) :
    (f.rootLabels.map (·.handle)).filter
        (!((f.rootLabels.filter (!keep ·)).map (·.handle)).contains ·) =
      (f.filterRoots keep).rootLabels.map (·.handle) := by
  have roots : (f.rootLabels.map (·.handle)).Nodup :=
    ((Forest.rootLabels_sublist_preorder f).map _).nodup distinct
  rw [Forest.rootLabels_filterRoots, List.filter_map]
  refine congrArg _ (List.filter_congr fun e he => ?_)
  have doomed : e.handle ∈ (f.rootLabels.filter (!keep ·)).map (·.handle) ↔ keep e = false := by
    constructor
    · intro inside
      obtain ⟨e', he', same⟩ := List.mem_map.1 inside
      obtain ⟨there, lost⟩ := List.mem_filter.1 he'
      rw [List.inj_on_of_nodup_map roots there he same] at lost
      simpa using lost
    · intro lost
      exact List.mem_map_of_mem (List.mem_filter.2 ⟨he, by simp [lost]⟩)
  rw [Function.comp_apply, Bool.eq_iff_iff]
  simp only [Bool.not_eq_true', ← Bool.not_eq_true, List.contains_iff_mem, doomed]
  simp

namespace Represents

variable (ha : a.Represents t)

include ha

/-- What the slots hold once some of the children of a node are freed and their links removed. -/
theorem node?_unlink (hr : t.find? h = some r) (keep : Entry → Bool) :
    let doomed := (r.children.rootLabels.filter (!keep ·)).map (·.handle)
    let c := a.unlink h doomed
    let kept := r.children.filterRoots keep
    (∀ n, a.node? h = some n → c.node? h = some { n with children := kept.rootLabels.map (·.handle) }) ∧
      (∀ y, y ≠ h → y ∉ r.children.handles ∨ y ∈ kept.handles → c.node? y = a.node? y) ∧
      ∀ y, c.contains y → a.contains y ∧ (y ∉ r.children.handles ∨ y ∈ kept.handles) := by
  intro doomed c kept
  have freed := ha.node?_freeAll hr (!keep ·)
  obtain ⟨outside, distinct⟩ := ha.not_mem_below hr
  have perm := Forest.handles_filterRoots_perm keep r.children
  have apart := (List.nodup_append'.1 (perm.nodup_iff.2 distinct)).2.2
  have nodes : ∀ y, c.node? y = if y = h then (a.node? h).map fun n =>
        { n with children := n.children.filter (!doomed.contains ·) }
      else if y ∈ (r.children.filterRoots (!keep ·)).handles then none else a.node? y := by
    intro y
    rw [show c = a.unlink h doomed from rfl, unlink, node?_update, freed]
    split
    · rename_i same
      subst same
      rw [if_neg fun inside => outside (perm.mem_iff.1 (List.mem_append_right _ inside))]
    · rfl
  refine ⟨fun n hn => ?_, fun y here there => ?_, fun y hy => ?_⟩
  · obtain ⟨p, node⟩ := ha.node hr
    rw [node] at hn
    cases hn
    rw [nodes, if_pos rfl, node, Option.map_some]
    exact congrArg (fun hs => some (Link.mk _ _ hs)) (filter_not_doomed distinct keep)
  · rw [nodes, if_neg here, if_neg]
    intro lost
    rcases there with there | there
    · exact there (perm.mem_iff.1 (List.mem_append_right _ lost))
    · exact apart there lost
  · rw [contains, nodes] at hy
    by_cases here : y = h
    · subst here
      rw [if_pos rfl, Option.isSome_map] at hy
      exact ⟨hy, Or.inl outside⟩
    · rw [if_neg here] at hy
      by_cases lost : y ∈ (r.children.filterRoots (!keep ·)).handles
      · rw [if_pos lost] at hy
        cases hy
      · rw [if_neg lost] at hy
        refine ⟨hy, ?_⟩
        by_cases below : y ∈ r.children.handles
        · exact Or.inr ((List.mem_append.1 (perm.mem_iff.2 below)).resolve_right lost)
        · exact Or.inl below

theorem holds_unlink (hr : t.find? h = some r) (keep : Entry → Bool) :
    (a.unlink h ((r.children.rootLabels.filter (!keep ·)).map (·.handle))).Holds (some h)
      (r.children.filterRoots keep) := by
  refine (holds_filterRoots (ha.below hr) keep).congr fun y hy =>
    (ha.node?_unlink hr keep).2.1 y ?_ (Or.inr hy)
  rintro rfl
  exact (ha.not_mem_below hr).1 ((Forest.handles_filterRoots_sublist keep r.children).subset hy)

theorem isArray_unlink (hr : t.find? h = some r) (keep : Entry → Bool) :
    (a.unlink h ((r.children.rootLabels.filter (!keep ·)).map (·.handle))).isArray h =
      t.isArray h := by
  obtain ⟨p, node⟩ := ha.node hr
  rw [← ha.isArray_eq h, Arena.isArray, Arena.isArray, (ha.node?_unlink hr keep).1 _ node, node]

/-- Some of the children of a node are removed. -/
theorem removeAll (hr : t.find? h = some r) (keep : Entry → Bool) :
    (a.removeAll h ((r.children.rootLabels.filter (!keep ·)).map (·.handle))).Represents
      (t.keepChildren h keep) := by
  have sound := ha.sound.keepChildren h keep
  obtain ⟨top, other, only⟩ := ha.node?_unlink hr keep
  have shape := kept_unlink a h ((r.children.rootLabels.filter (!keep ·)).map (·.handle))
  obtain ⟨outside, distinct⟩ := ha.not_mem_below hr
  have sublist := Forest.handles_filterRoots_sublist keep r.children
  have below := ha.holds_unlink hr keep
  have array := ha.isArray_unlink hr keep
  unfold Tree.keepChildren at sound ⊢
  unfold Arena.removeAll
  generalize a.unlink h ((r.children.rootLabels.filter (!keep ·)).map (·.handle)) = c
    at top other only shape below array ⊢
  obtain ⟨p, node⟩ := ha.node hr
  dsimp only at sound ⊢
  rw [array]
  cases isArray : t.isArray h with
  | false =>
    rw [isArray] at sound
    exact ha.adjust (g := (·.filterRoots keep)) hr shape.kind shape.root (shape.length.trans ha.next)
      top below (fun y _ here there => other y here (Or.inl there))
      (fun y hy => (only y hy).2.imp_left fun there => ⟨(only y hy).1, there⟩) sound
  | true =>
    rw [isArray] at sound
    have children : c.children h = (r.children.filterRoots keep).rootLabels.map (·.handle) := by
      rw [Arena.children, top _ node, Option.map_some, Option.getD_some]
    have renumbered := holds_renumber below (sublist.nodup distinct) 0
    rw [← children] at renumbered
    obtain ⟨holds, others, live⟩ := renumbered
    have roots : ∀ y, y ∉ r.children.handles → y ∉ c.children h := by
      intro y there inside
      rw [children] at inside
      obtain ⟨e, he, rfl⟩ := List.mem_map.1 inside
      exact there (sublist.subset
        (List.mem_map_of_mem (Forest.mem_preorder_of_mem_rootLabels he)))
    have shape := shape.trans (kept_renumber c h)
    have same : (Tree.renumbered (r.children.filterRoots keep)).handles =
        (r.children.filterRoots keep).handles := by
      rw [Tree.renumbered, Forest.handles_mapRoots]
      exact fun _ _ => rfl
    refine ha.adjust (g := fun f => Tree.renumbered (f.filterRoots keep)) hr shape.kind shape.root
      (shape.length.trans ha.next) (fun n hn => ?_) holds (fun y _ here there => ?_)
      (fun y hy => ?_) sound
    · refine (others h (roots h outside)).trans ((top n hn).trans ?_)
      rw [Tree.renumbered, map_handle_mapRoots]
      exact fun _ _ => rfl
    · exact (others y (roots y there)).trans (other y here (Or.inl there))
    · rw [same]
      have hy := only y ((live y).symm.trans hy)
      exact hy.2.imp_left fun there => ⟨hy.1, there⟩

/-- Removing children answers with their number, as it does on the tree. -/
theorem removeChildren (h : Handle) (keys : List String) :
    (a.removeChildren h keys).1.Represents (t.removeChildren h keys).1 ∧
      (a.removeChildren h keys).2 = (t.removeChildren h keys).2 := by
  unfold Arena.removeChildren Tree.removeChildren
  rw [ha.children_eq]
  cases hr : t.find? h with
  | none =>
    have missing := ha.node?_eq_none hr
    have below : t.below h = .nil := by rw [Tree.below, hr]
    have children : t.children h = [] := by rw [Tree.children, below]; rfl
    have same : ∀ keep, t.keepChildren h keep = t := fun keep =>
      Tree.ext_forest (Forest.adjust_of_find?_eq_none hr) rfl rfl
    have unlinked : ∀ x, (a.unlink h []).node? x = a.node? x := update_of_missing missing _
    have array : (a.unlink h []).isArray h = false := by
      rw [isArray, unlinked, missing]
    dsimp only
    rw [children, below, same, List.filter_nil, Arena.removeAll, array]
    exact ⟨ha.of_node? (kept_unlink a h []) unlinked, rfl⟩
  | some r =>
    have below := ha.below hr
    have doomed : (t.children h).filter (a.bearsKey keys) =
        (r.children.rootLabels.filter fun e => !!keys.contains e.data.key).map (·.handle) := by
      rw [Tree.children, Tree.below_of_find? hr, List.filter_map]
      refine congrArg _ (List.filter_congr fun e he => ?_)
      have inside : e ∈ t.forest.preorder := Forest.mem_preorder_of_child (Tree.find?_mem hr) he
      obtain ⟨n, hn, rfl⟩ := List.mem_map.1 (Forest.map_label_subtrees t.forest ▸ inside)
      obtain ⟨p, node⟩ := ha.node (ha.sound.find?_of_mem hn)
      rw [Function.comp_apply, bearsKey, node, Bool.not_not]
    rw [doomed]
    refine ⟨ha.removeAll hr fun e => !keys.contains e.data.key, ?_⟩
    simp only [List.length_map, Bool.not_not, Tree.below_of_find? hr]

theorem parent?_eq (h : Handle) : a.parent? h = t.parent? h := by
  cases hr : t.find? h with
  | none =>
    have missing : t.parent? h = none := by
      refine Option.eq_none_iff_forall_ne_some.2 fun p hp => ?_
      obtain ⟨r, hr', e, he, rfl⟩ := Tree.mem_children_iff.1 (ha.sound.parent?_eq_some_iff.1 hp)
      exact Forest.find?_eq_none_iff_handles.1 hr
        (Forest.mem_handles_of_mem_children (Tree.find?_mem hr') he)
    rw [missing, Arena.parent?, ha.node?_eq_none hr]
    rfl
  | some x =>
    obtain rfl := Tree.find?_handle hr
    rcases ha.holds.parent?_cases (Forest.mem_preorder_of_mem_subtrees (Tree.find?_mem hr)
      List.mem_cons_self) with ⟨root, none⟩ | ⟨r, hr', he, some⟩
    · rw [none, List.mem_singleton.1 root]
      simp [Tree.parent?, Tree.trail, Tree.forest, Forest.ofRose, Forest.trail?]
    · rw [some, ha.sound.parent?_of_child hr' he]

/-- Removing a node answers whether there was one, as it does on the tree. -/
theorem remove (h : Handle) :
    (a.remove h).1.Represents (t.remove h).1 ∧ (a.remove h).2 = (t.remove h).2 := by
  unfold Arena.remove Tree.remove
  rw [ha.parent?_eq]
  cases hp : t.parent? h with
  | none => exact ⟨ha, rfl⟩
  | some p =>
    obtain ⟨r, hr, e, he, rfl⟩ := Tree.mem_children_iff.1 (ha.sound.parent?_eq_some_iff.1 hp)
    have roots : (r.children.rootLabels.map (·.handle)).Nodup :=
      ((Forest.rootLabels_sublist_preorder _).map _).nodup (ha.not_mem_below hr).2
    have doomed : (r.children.rootLabels.filter fun x => !(x.handle != e.handle)).map (·.handle) =
        [e.handle] := by
      have only := List.filter_beq (l := r.children.rootLabels.map (·.handle)) e.handle
      rw [List.count_eq_one_of_mem roots (List.mem_map_of_mem he), List.filter_map] at only
      simpa [Function.comp_def, bne] using only
    refine ⟨?_, rfl⟩
    have removed := ha.removeAll hr (·.handle != e.handle)
    rwa [doomed] at removed

/-- Every change of the arena is the change of the tree. -/
theorem perform (change : TreeChange) : (a.perform change).Represents (t.perform change) := by
  cases change with
  | add p d => exact (ha.add p d).1
  | graft p draft => exact (ha.graft p draft).1
  | removeChildren h keys => exact (ha.removeChildren h keys).1
  | remove h => exact (ha.remove h).1
  | clear h => exact ha.clear h
  | replace h drafts => exact ha.replace h drafts
  | modify h f => exact ha.modify h f

/-- After every run the arena represents the tree after the same run. -/
theorem run (changes : List TreeChange) :
    (a.run changes).Represents (changes.foldl Tree.perform t) := by
  induction changes generalizing a t with
  | nil => exact ha
  | cons change changes ih => exact ih (ha.perform change)

end Represents

end LayeredConfig.Arena
