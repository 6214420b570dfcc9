import LayeredConfig.Proofs.Forest.Positions
import LayeredConfig.Proofs.Tree.WellFormed

/-!
# An arena refines an ordered tree

What an arena shows of itself is the copy of its root, an ordered tree of data without handles. A
change of the arena is a change of that tree below one place (`Changed`), and every node that is not
below the place keeps its data, its place and its handle. `RefinesAt` says which change each
operation is at a node.

Main statement: `refines_run`, for the arena after every run.
-/

namespace LayeredConfig

/-! ## Children of arrays -/

/-- Drafts as they stand below a node: the items of an array are keyed by their positions. -/
def NodeData.arrange (d : NodeData) (drafts : Forest NodeData) : Forest NodeData :=
  if d.type = .array then numberItems drafts else drafts

/-- Entries as they stand below a node: the items of an array are keyed by their positions. -/
def Entry.arrange (e : Entry) (f : Forest Entry) : Forest Entry :=
  if e.data.type = .array then Tree.renumbered f else f

theorem map_data_renumbered (f : Forest Entry) :
    (Tree.renumbered f).map (·.data) = numberItems (f.map (·.data)) := by
  unfold Tree.renumbered numberItems
  generalize 0 = first
  induction f generalizing first with
  | nil => rfl
  | cons e cs ss _ ih => rw [Forest.mapRoots, Forest.map, Forest.map, Forest.mapRoots, ih]

theorem map_data_arrange (e : Entry) (f : Forest Entry) :
    (e.arrange f).map (·.data) = e.data.arrange (f.map (·.data)) := by
  unfold Entry.arrange NodeData.arrange
  split
  · exact map_data_renumbered f
  · rfl

/-! ## One tree taken away -/

/-- The forest without the tree at a position. -/
def Forest.dropRoot {α : Type} (i : Nat) (f : Forest α) : Forest α := .ofRoots (f.roots.eraseIdx i)

theorem map_dropRoot {α β : Type} (g : α → β) (i : Nat) (f : Forest α) :
    (f.dropRoot i).map g = (f.map g).dropRoot i := by
  apply Forest.roots_injective
  unfold Forest.dropRoot
  rw [Forest.roots_map, Forest.roots_ofRoots, Forest.roots_ofRoots, Forest.roots_map,
    List.eraseIdx_map]

/-- Where handles are distinct, taking away a handle is taking away a position. -/
theorem filterRoots_handle_ne {f : Forest Entry} (distinct : f.handles.Nodup) {i : Nat}
    {r : Rose Entry} (hr : f.roots[i]? = some r) :
    f.filterRoots (·.handle != r.label.handle) = f.dropRoot i := by
  apply Forest.roots_injective
  rw [Forest.roots_filterRoots, Forest.dropRoot, Forest.roots_ofRoots]
  have labels : (f.rootLabels.map (·.handle)).Nodup :=
    ((Forest.rootLabels_sublist_preorder f).map _).nodup distinct
  rw [Forest.rootLabels_eq_map_roots, List.map_map] at labels
  generalize f.roots = rs at hr labels
  induction rs generalizing i with
  | nil => cases hr
  | cons s rs ih =>
    obtain ⟨outside, labels⟩ := List.nodup_cons.1 labels
    cases i with
    | zero =>
      cases hr
      rw [List.eraseIdx_cons_zero, List.filter_cons_of_neg (by simp), List.filter_eq_self]
      intro x hx
      simpa using fun same => outside (List.mem_map.2 ⟨x, hx, same⟩)
    | succ i =>
      have other : s.label.handle ≠ r.label.handle := fun same =>
        outside (List.mem_map.2 ⟨r, List.mem_of_getElem? hr, same.symm⟩)
      rw [List.eraseIdx_cons_succ, List.filter_cons_of_pos (by simpa using other), ih hr labels]

namespace Tree

variable {t : Tree} {p : List Nat} {r : Rose Entry}

theorem Sound.find?_of_subtree? (ht : t.Sound) (hr : t.top.subtree? p = some r) :
    t.find? r.label.handle = some r := ht.find?_of_mem (Rose.mem_subtrees_of_subtree? hr)

theorem Sound.top_adjust (ht : t.Sound) (hr : t.top.subtree? p = some r)
    (f : Forest Entry → Forest Entry) :
    (t.adjust r.label.handle f).top = t.top.changeBelow f p :=
  Rose.adjust_eq_changeBelow ht.distinct hr f

/-- A node below the root is a child of the node one step up. -/
theorem Sound.parent?_of_subtree? (ht : t.Sound) {q : List Nat} {i : Nat} {above : Rose Entry}
    (ha : t.top.subtree? q = some above) (hr : above.children.roots[i]? = some r) :
    t.parent? r.label.handle = some above.label.handle := by
  have child := Forest.label_mem_rootLabels (List.mem_of_getElem? hr)
  exact ht.parent?_of_child (find?_mem (ht.find?_of_subtree? ha)) child

theorem Sound.top_keepChildren (ht : t.Sound) (hr : t.top.subtree? p = some r)
    (keep : Entry → Bool) :
    (t.keepChildren r.label.handle keep).top =
      t.top.changeBelow (fun f => r.label.arrange (f.filterRoots keep)) p := by
  have change : (fun f : Forest Entry => if t.isArray r.label.handle then
      renumbered (f.filterRoots keep) else f.filterRoots keep) =
        fun f => r.label.arrange (f.filterRoots keep) := by
    funext f
    rw [isArray_of_find? (ht.find?_of_subtree? hr), Entry.arrange]
    simp only [beq_iff_eq]
  rw [Tree.keepChildren, ← change]
  exact ht.top_adjust hr _

theorem Sound.top_graftAll (ht : t.Sound) (hr : t.top.subtree? p = some r)
    (drafts : Forest NodeData) :
    (t.graftAll r.label.handle drafts).1.top =
      t.top.changeBelow (· ++ (drafts.number t.next).1) p := by
  rw [Tree.graftAll, if_pos (contains_of_find? (ht.find?_of_subtree? hr))]
  exact ht.top_adjust hr _

end Tree

/-! ## Copies -/

theorem Forest.depth_ofRose_le {f : Forest Entry} {r : Rose Entry} (hr : r ∈ f.subtrees) :
    (ofRose r).depth ≤ f.depth := by
  have below := depth_lt_of_mem_subtrees hr
  rw [ofRose, depth, depth]
  omega

namespace Arena

variable {a b : Arena} {t t' : Tree} {p : List Nat} {r : Rose Entry}

/-- A copy of a node of the arena is a copy of the node of the tree. -/
theorem Represents.extract_eq (ha : a.Represents t) (h : Handle) : a.extract h = t.extract h := by
  unfold Arena.extract Tree.extract
  refine congrArg _ ?_
  rw [ha.next]
  cases hr : t.find? h with
  | none =>
    cases t.next with
    | zero => rfl
    | succ depth => rw [readOut, ha.node?_eq_none hr, Option.map_none]
  | some r =>
    obtain rfl := Tree.find?_handle hr
    have inside := Tree.find?_mem hr
    obtain ⟨⟨parent, node⟩, below⟩ := ha.holds.node inside
    have held : a.Holds parent (.ofRose r) := ⟨node, below, trivial⟩
    exact readOut_of_holds held (Nat.le_trans (Forest.depth_ofRose_le inside) ha.sound.depth_le)

/-- The arena that shows a node represents the tree that shows it. -/
theorem Represents.preview? (ha : a.Represents t) {h : Handle} (hb : a.preview? h = some b) :
    ∃ t', t.preview? h = some t' ∧ b.Represents t' := by
  unfold Arena.preview? at hb
  rw [ha.extract_eq] at hb
  obtain ⟨draft, hd, rfl⟩ := Option.map_eq_some_iff.1 hb
  refine ⟨_, by rw [Tree.preview?, hd, Option.map_some], ?_⟩
  exact ((represents_withRoot .detached { key := Tree.rootKeyOf .detached }).graft _ draft).1

/-! ## Changes at a place -/

/-- What is below the node at a place changes as `f` says of entries and `g` of their data. Every
node that is not below the place keeps its data, its handle and its place. -/
structure Changed (a b : Arena) (p : List Nat) (f : Forest Entry → Forest Entry)
    (g : Forest NodeData → Forest NodeData) : Prop where
  kind : b.kind = a.kind
  root : b.root = a.root
  plain : b.extract b.root = (a.extract a.root).map (·.changeBelow g p)
  named : b.tree.top = a.tree.top.changeBelow f p
  others : ∀ q, (p <+: q → q = p) →
    (b.tree.top.subtree? q).map (·.label) = (a.tree.top.subtree? q).map (·.label)

/-- What each operation is at the node `r` at the place `p`. -/
structure RefinesAt (a : Arena) (p : List Nat) (r : Rose Entry) : Prop where
  extract : a.extract r.label.handle = some (r.map (·.data))
  /-- The draft becomes the last child, under handles that were never given out. -/
  graft : ∀ draft, ∃ added : Rose Entry, added.map (·.data) = draft ∧
    (∀ e ∈ added.preorder, a.slots.length ≤ e.handle) ∧
    (a.graft r.label.handle draft).2 = some added.label.handle ∧
    (a.graft r.label.handle draft).1.extract added.label.handle = some draft ∧
    Changed a (a.graft r.label.handle draft).1 p (· ++ .ofRose added) (· ++ .ofRose draft)
  /-- The children whose keys are listed go. -/
  removeChildren : ∀ keys,
    (a.removeChildren r.label.handle keys).2 =
      (r.children.roots.filter fun c => keys.contains c.label.data.key).length ∧
    Changed a (a.removeChildren r.label.handle keys).1 p
      (fun f => r.label.arrange (f.filterRoots fun e => !keys.contains e.data.key))
      (fun f => r.label.data.arrange (f.filterRoots fun d => !keys.contains d.key))
  /-- The root stays. -/
  remove_root : p = [] → a.remove r.label.handle = (a, false)
  /-- The node goes with what is below it. -/
  remove : ∀ q i above, p = q ++ [i] → a.tree.top.subtree? q = some above →
    (a.remove r.label.handle).2 = true ∧
    Changed a (a.remove r.label.handle).1 q
      (fun f => above.label.arrange (f.dropRoot i)) (fun f => above.label.data.arrange (f.dropRoot i))
  clear : Changed a (a.clear r.label.handle) p (fun _ => .nil) (fun _ => .nil)
  /-- The drafts become the children, under handles that were never given out. -/
  replace : ∀ drafts, ∃ added : Forest Entry, added.map (·.data) = drafts ∧
    (∀ e ∈ added.preorder, a.slots.length ≤ e.handle) ∧
    Changed a (a.replace r.label.handle drafts) p (fun _ => added) (fun _ => drafts)
  /-- The preview is a tree of its own, whose root has the copy of the node as its only child. -/
  preview : ∃ b, a.preview? r.label.handle = some b ∧ b.WellFormed ∧ b.kind = .detached ∧
    b.extract b.root = some ⟨{ key := "" }, .ofRose (r.map (·.data))⟩

theorem Represents.extract_root (ha : a.Represents t) :
    a.extract a.root = some (t.top.map (·.data)) := by
  have top : t.find? t.root = some t.top := ha.sound.find?_of_subtree? (Rose.subtree?_nil t.top)
  rw [ha.extract_eq, ha.root, Tree.extract, top, Option.map_some]

/-- Trees that differ below one place only. -/
theorem Represents.changed (ha : a.Represents t) (hb : b.Represents t') (kept : t'.kind = t.kind)
    {f : Forest Entry → Forest Entry} {g : Forest NodeData → Forest NodeData}
    (top : t'.top = t.top.changeBelow f p) (comm : ∀ cs, (f cs).map (·.data) = g (cs.map (·.data))) :
    Changed a b p f g where
  kind := hb.kind.trans (kept.trans ha.kind.symm)
  root := by
    rw [hb.root, ha.root, Tree.root, top, Rose.label_changeBelow_top, Tree.root]
  plain := by
    rw [hb.extract_root, ha.extract_root, top, Option.map_some, Rose.map_changeBelow comm]
  named := by
    rw [hb.tree_eq, ha.tree_eq, top]
  others q outside := by
    rw [hb.tree_eq, ha.tree_eq, top]
    exact Rose.label_changeBelow f outside t.top

/-- Handles of new nodes were never given out. -/
theorem le_of_mem_number {drafts : Forest NodeData} {next : Handle} {e : Entry}
    (he : e ∈ (drafts.number next).1.preorder) : next ≤ e.handle := by
  have inside : e.handle ∈ (drafts.number next).1.handles := List.mem_map_of_mem he
  rw [(Forest.handles_number drafts next).1, List.mem_range'_1] at inside
  exact inside.1

section Operations

variable (ha : a.Represents t) (hr : t.top.subtree? p = some r)

include ha hr

theorem Represents.graft_refines (draft : Draft) : ∃ added : Rose Entry, added.map (·.data) = draft ∧
    (∀ e ∈ added.preorder, a.slots.length ≤ e.handle) ∧
    (a.graft r.label.handle draft).2 = some added.label.handle ∧
    (a.graft r.label.handle draft).1.extract added.label.handle = some draft ∧
    Changed a (a.graft r.label.handle draft).1 p (· ++ .ofRose added) (· ++ .ofRose draft) := by
  obtain ⟨hb, answer⟩ := ha.graft r.label.handle draft
  have there := Tree.contains_of_find? (ha.sound.find?_of_subtree? hr)
  have top := ha.sound.top_graftAll hr (.ofRose draft)
  let added : Rose Entry := ⟨⟨t.next, draft.label⟩, (draft.children.number (t.next + 1)).1⟩
  have numbered : ((Forest.ofRose draft).number t.next).1 = .ofRose added := rfl
  have same : added.map (·.data) = draft := by
    rw [Rose.map, Forest.map_data_number]
  have sameForest : (Forest.ofRose added).map (·.data) = .ofRose draft := by
    rw [← Rose.ofRose_map, same]
  rw [numbered] at top
  -- the new node is found as the last child of the node at `p`
  have place : (t.graft r.label.handle draft).1.top.subtree? (p ++ [r.children.roots.length]) =
      some added := by
    rw [show (t.graft r.label.handle draft).1.top = _ from top, Rose.subtree?_concat,
      Rose.subtree?_changeBelow_self hr, Option.bind_some, Forest.roots_append,
      List.getElem?_append_right (Nat.le_refl _), Nat.sub_self]
    rfl
  refine ⟨added, same, fun e he => ?_, ?_, ?_, ?_⟩
  · rw [ha.next]
    rw [← Rose.preorder_ofRose, ← numbered] at he
    exact le_of_mem_number he
  · rw [answer, Tree.graft_of_contains there]
  · rw [hb.extract_eq, Tree.extract, hb.sound.find?_of_subtree? place, Option.map_some, same]
  · refine ha.changed hb ?_ top fun cs => ?_
    · rw [Tree.graft, Tree.graftAll, if_pos there]
      rfl
    · rw [Forest.map_append, sameForest]

theorem Represents.removeChildren_refines (keys : List String) :
    (a.removeChildren r.label.handle keys).2 =
      (r.children.roots.filter fun c => keys.contains c.label.data.key).length ∧
    Changed a (a.removeChildren r.label.handle keys).1 p
      (fun f => r.label.arrange (f.filterRoots fun e => !keys.contains e.data.key))
      (fun f => r.label.data.arrange (f.filterRoots fun d => !keys.contains d.key)) := by
  obtain ⟨hb, answer⟩ := ha.removeChildren r.label.handle keys
  refine ⟨?_, ha.changed hb rfl (ha.sound.top_keepChildren hr _) fun cs => ?_⟩
  · rw [answer, Tree.removeChildren, Tree.below_of_find? (ha.sound.find?_of_subtree? hr),
      Forest.rootLabels_eq_map_roots, List.filter_map, List.length_map]
    rfl
  · rw [map_data_arrange, Forest.filterRoots_map fun _ => rfl]

theorem Represents.remove_refines {q : List Nat} {i : Nat} {above : Rose Entry}
    (hp : p = q ++ [i]) (hq : t.top.subtree? q = some above) :
    (a.remove r.label.handle).2 = true ∧
    Changed a (a.remove r.label.handle).1 q (fun f => above.label.arrange (f.dropRoot i))
      (fun f => above.label.data.arrange (f.dropRoot i)) := by
  obtain ⟨hb, answer⟩ := ha.remove r.label.handle
  have child : above.children.roots[i]? = some r := by
    rwa [hp, Rose.subtree?_concat, hq, Option.bind_some] at hr
  have removed : t.remove r.label.handle =
      (t.keepChildren above.label.handle (·.handle != r.label.handle), true) := by
    rw [Tree.remove, ha.sound.parent?_of_subtree? hq child]
  have distinct : above.children.handles.Nodup :=
    (Forest.handle_not_mem_below ha.sound.distinct (Rose.mem_subtrees_of_subtree? hq)).2
  rw [removed] at hb answer
  refine ⟨answer, ha.changed hb rfl ?_ fun cs => ?_⟩
  · rw [ha.sound.top_keepChildren hq]
    refine Rose.changeBelow_congr hq ?_
    rw [filterRoots_handle_ne distinct child]
  · rw [map_data_arrange, map_dropRoot]

theorem Represents.remove_root (hp : p = []) : a.remove r.label.handle = (a, false) := by
  subst hp
  cases hr
  rw [Arena.remove, ha.parent?_eq, show t.top.label.handle = t.root from rfl, Tree.parent?_root]

theorem Represents.clear_refines :
    Changed a (a.clear r.label.handle) p (fun _ => .nil) (fun _ => .nil) :=
  ha.changed (ha.clear r.label.handle) rfl (ha.sound.top_adjust hr _) fun _ => rfl

theorem Represents.replace_refines (drafts : Forest NodeData) :
    ∃ added : Forest Entry, added.map (·.data) = drafts ∧
      (∀ e ∈ added.preorder, a.slots.length ≤ e.handle) ∧
      Changed a (a.replace r.label.handle drafts) p (fun _ => added) (fun _ => drafts) := by
  have sound := ha.sound.clear r.label.handle
  have cleared : (t.clear r.label.handle).top = t.top.changeBelow (fun _ => .nil) p :=
    ha.sound.top_adjust hr _
  have place : (t.clear r.label.handle).top.subtree? p = some ⟨r.label, .nil⟩ := by
    rw [cleared, Rose.subtree?_changeBelow_self hr]
  have top := sound.top_graftAll place drafts
  rw [cleared, Rose.changeBelow_changeBelow] at top
  refine ⟨(drafts.number t.next).1, Forest.map_data_number drafts t.next, fun e he => ?_,
    ha.changed (ha.replace r.label.handle drafts) ?_ top fun _ => Forest.map_data_number drafts _⟩
  · rw [ha.next]
    exact le_of_mem_number he
  · rw [Tree.replace, Tree.graftAll,
      if_pos (Tree.contains_of_find? (sound.find?_of_subtree? place))]
    rfl

theorem Represents.preview_refines :
    ∃ b, a.preview? r.label.handle = some b ∧ b.WellFormed ∧ b.kind = .detached ∧
      b.extract b.root = some ⟨{ key := "" }, .ofRose (r.map (·.data))⟩ := by
  have copy : t.extract r.label.handle = some (r.map (·.data)) := by
    rw [Tree.extract, ha.sound.find?_of_subtree? hr, Option.map_some]
  have shown : a.preview? r.label.handle =
      some ((empty .detached).graft (empty .detached).root (r.map (·.data))).1 := by
    rw [Arena.preview?, ha.extract_eq, copy, Option.map_some]
  obtain ⟨t', ht', hb⟩ := ha.preview? shown
  rw [Tree.preview?, copy, Option.map_some] at ht'
  cases ht'
  refine ⟨_, shown, hb.wellFormed, hb.kind, ?_⟩
  rw [hb.extract_root, Tree.map_data_ofDrafts]
  rfl

/-- Every operation at a node of the tree is the change that it should be. -/
theorem Represents.refinesAt : a.RefinesAt p r where
  extract := by
    rw [ha.extract_eq, Tree.extract, ha.sound.find?_of_subtree? hr, Option.map_some]
  graft := ha.graft_refines hr
  removeChildren := ha.removeChildren_refines hr
  remove_root := ha.remove_root hr
  remove q i above hp hq := ha.remove_refines hr hp (by rwa [ha.tree_eq] at hq)
  clear := ha.clear_refines hr
  replace := ha.replace_refines hr
  preview := ha.preview_refines hr

end Operations

/-- **An arena refines an ordered tree.** After every run of changes of a new arena, the copy of its
root is the tree of its nodes without their handles, the live handles are those of the nodes in that
tree, and each operation at a node changes the tree below that node, or below its parent, as
`RefinesAt` says, and nothing else. -/
theorem refines_run (kind : TreeKind) (data : NodeData) (changes : List TreeChange) :
    let a := (withRoot kind data).run changes
    a.extract a.root = some (a.tree.top.map (·.data)) ∧
      (∀ h, a.contains h ↔ ∃ p r, a.tree.top.subtree? p = some r ∧ r.label.handle = h) ∧
      ∀ p r, a.tree.top.subtree? p = some r → a.RefinesAt p r := by
  intro a
  have ha := (represents_withRoot kind data).run changes
  rw [ha.tree_eq]
  refine ⟨ha.extract_root, fun h => ?_, fun p r hr => ha.refinesAt hr⟩
  rw [ha.contains_eq, Tree.contains_iff, Forest.mem_handles]
  constructor
  · rintro ⟨e, he, rfl⟩
    rw [← Forest.map_label_subtrees, List.mem_map] at he
    obtain ⟨r, hr, rfl⟩ := he
    obtain ⟨p, place⟩ := Rose.exists_subtree? hr
    exact ⟨p, r, place, rfl⟩
  · rintro ⟨p, r, place, rfl⟩
    have inside := Rose.mem_subtrees_of_subtree? place
    exact ⟨r.label, Forest.mem_preorder_of_mem_subtrees inside List.mem_cons_self, rfl⟩

end Arena

end LayeredConfig
