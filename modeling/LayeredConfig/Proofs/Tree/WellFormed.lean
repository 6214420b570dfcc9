import LayeredConfig.Proofs.Tree.ArenaChanges
import Mathlib.Logic.Relation

/-!
# An arena is always one tree

`Arena.WellFormed` says of the links alone that they make one tree: parents and children agree, and
every node is reached from the root. An arena that represents a tree is well-formed
(`Represents.wellFormed`), and it can be read out as that tree (`Represents.tree_eq`), so this is so
after every run (`wellFormed_run`).

A change gives out handles from the next one on (`Tree.Fresh`). So a handle that was given out and
names no node will never name one.
-/

namespace LayeredConfig

/-! ## Handles given out -/

namespace Tree

/-- The nodes of the later tree are nodes of the earlier one or have handles given out since. -/
structure Fresh (t t' : Tree) : Prop where
  next : t.next ≤ t'.next
  handles : ∀ x ∈ t'.forest.handles, x ∈ t.forest.handles ∨ t.next ≤ x

variable {t t' t'' : Tree}

theorem Fresh.refl (t : Tree) : Fresh t t := ⟨Nat.le_refl _, fun _ hx => Or.inl hx⟩

theorem Fresh.trans (h : Fresh t t') (h' : Fresh t' t'') : Fresh t t'' where
  next := Nat.le_trans h.next h'.next
  handles x hx := (h'.handles x hx).elim (h.handles x) fun later =>
    Or.inr (Nat.le_trans h.next later)

theorem fresh_of_sublist (hs : t'.forest.handles.Sublist t.forest.handles) (hn : t'.next = t.next) :
    Fresh t t' := ⟨Nat.le_of_eq hn.symm, fun _ hx => Or.inl (hs.subset hx)⟩

theorem fresh_clear (t : Tree) (h : Handle) : Fresh t (t.clear h) :=
  fresh_of_sublist (Forest.handles_adjust_sublist (h := fun _ => .nil)
    (fun cs => List.nil_sublist cs.handles) (·.handle == h) t.forest) rfl

theorem fresh_keepChildren (t : Tree) (h : Handle) (keep : Entry → Bool) :
    Fresh t (t.keepChildren h keep) :=
  fresh_of_sublist (handles_keepChildren_sublist t h keep) rfl

theorem fresh_graftAll (sound : t.Sound) (parent : Handle) (drafts : Forest NodeData) :
    Fresh t (t.graftAll parent drafts).1 := by
  unfold graftAll
  split
  · rename_i there
    obtain ⟨handles, next⟩ := Forest.handles_number drafts t.next
    have perm := Forest.handles_adjust_append sound.distinct (contains_iff.1 there)
      (drafts.number t.next).1
    refine ⟨Nat.le_trans (Nat.le_add_right _ _) (Nat.le_of_eq next.symm), fun x hx => ?_⟩
    rcases List.mem_append.1 (perm.mem_iff.1 hx) with hx | hx
    · exact Or.inl hx
    · rw [handles, List.mem_range'_1] at hx
      exact Or.inr hx.1
  · exact .refl t

theorem fresh_perform (sound : t.Sound) (change : TreeChange) : Fresh t (t.perform change) := by
  cases change with
  | add p d => exact fresh_graftAll sound p (.ofRose ⟨d, .nil⟩)
  | graft p draft => exact fresh_graftAll sound p (.ofRose draft)
  | removeChildren h keys => exact fresh_keepChildren t h _
  | remove h =>
    change Fresh t (t.remove h).1
    unfold remove
    split
    · exact fresh_keepChildren t _ _
    · exact .refl t
  | clear h => exact fresh_clear t h
  | replace h drafts => exact (fresh_clear t h).trans (fresh_graftAll (sound.clear h) h drafts)
  | modify h f =>
    have same : (t.modify h f).forest.handles = t.forest.handles := by
      rw [forest_modify, Forest.handles_map fun e => by split <;> rfl]
    exact fresh_of_sublist (same ▸ List.Sublist.refl _) rfl

end Tree

namespace Arena

variable {a : Arena} {t : Tree} {h x : Handle} {parent : Option Handle} {f : Forest Entry}

/-! ## The tree read out -/

theorem filterMap_readOut {depth : Nat} (hf : a.Holds parent f) (deep : f.depth ≤ depth) :
    (f.rootLabels.map (·.handle)).filterMap (a.readOut depth) = f.roots := by
  induction f generalizing depth parent with
  | nil => rfl
  | cons e cs ss ihc ihs =>
    obtain ⟨he, hcs, hss⟩ := hf
    rw [Forest.depth] at deep
    obtain ⟨k, rfl⟩ : ∃ k, depth = k + 1 := ⟨depth - 1, by omega⟩
    have first : a.readOut (k + 1) e.handle = some ⟨e, cs⟩ := by
      rw [readOut, he, Option.map_some, ihc hcs (by omega), Forest.ofRoots_roots]
    rw [Forest.rootLabels, List.map_cons, List.filterMap_cons, first, ihs hss (by omega),
      Forest.roots]

theorem readOut_of_holds {depth : Nat} {r : Rose Entry} (hf : a.Holds parent (.ofRose r))
    (deep : (Forest.ofRose r).depth ≤ depth) : a.readOut depth r.label.handle = some r := by
  have read : [r.label.handle].filterMap (a.readOut depth) = [r] := filterMap_readOut hf deep
  cases top : a.readOut depth r.label.handle with
  | none => simp [top] at read
  | some r' => simpa [top] using read

/-- The tree that the links describe is the tree that they represent. -/
theorem Represents.tree_eq (ha : a.Represents t) : a.tree = t := by
  have top : a.readOut t.next t.root = some t.top := readOut_of_holds ha.holds ha.sound.depth_le
  obtain ⟨kind, tree, next⟩ := t
  rw [Arena.tree, ha.kind, ha.root, ha.next, top, Option.getD_some]

/-! ## Links that make one tree -/

/-- A node that is reached from the root. -/
def Reached (a : Arena) (h : Handle) : Prop :=
  Relation.ReflTransGen (fun p c => c ∈ a.children p) a.root h

/-- The nodes make one tree, and both kinds of links agree on it. -/
structure WellFormed (a : Arena) : Prop where
  root : a.contains a.root ∧ a.parent? a.root = none
  parent : ∀ h, a.contains h → h ≠ a.root →
    ∃ p, a.parent? h = some p ∧ a.contains p ∧ (a.children p).count h = 1
  child : ∀ p, ∀ c ∈ a.children p, a.contains c ∧ a.parent? c = some p
  reached : ∀ h, a.contains h ↔ a.Reached h
  len : ∃ nodes : List Handle, nodes.Nodup ∧ (∀ h, h ∈ nodes ↔ a.Reached h) ∧ a.len = nodes.length

/-- The number of nodes is that of the handles that name one. -/
theorem len_eq (a : Arena) : a.len = ((List.range a.slots.length).filter a.contains).length := by
  have slots : a.slots = (List.range a.slots.length).map a.node? := by
    refine List.ext_getElem (by simp) fun i hi _ => ?_
    simp [node?, List.getElem?_eq_getElem hi]
  rw [len, slots, List.countP_map, List.countP_eq_length_filter, ← slots]
  rfl

theorem Holds.parent?_of_root (hf : a.Holds parent f) {e : Entry} (he : e ∈ f.rootLabels) :
    a.parent? e.handle = parent := by
  induction f with
  | nil => cases he
  | cons x cs ss _ ih =>
    rcases List.mem_cons.1 he with rfl | he
    · rw [parent?, hf.1]
      rfl
    · exact ih hf.2.2 he

/-- Every node of a forest is reached from one of its trees. -/
theorem Holds.reached (hf : a.Holds parent f) {e : Entry} (he : e ∈ f.preorder) :
    ∃ x ∈ f.rootLabels, Relation.ReflTransGen (fun p c => c ∈ a.children p) x.handle e.handle := by
  induction f generalizing parent with
  | nil => cases he
  | cons x cs ss ihc ihs =>
    obtain ⟨hx, hcs, hss⟩ := hf
    rw [Forest.preorder, List.mem_cons, List.mem_append] at he
    rcases he with rfl | he | he
    · exact ⟨e, List.mem_cons_self, .refl⟩
    · obtain ⟨c, hc, way⟩ := ihc hcs he
      refine ⟨x, List.mem_cons_self, .head ?_ way⟩
      rw [children, hx]
      exact List.mem_map_of_mem hc
    · obtain ⟨c, hc, way⟩ := ihs hss he
      exact ⟨c, List.mem_cons_of_mem _ hc, way⟩

namespace Represents

variable (ha : a.Represents t)

include ha

theorem exists_entry (live : a.contains h) : ∃ e ∈ t.forest.preorder, e.handle = h :=
  Forest.mem_handles.1 (ha.only h live)

/-- A child is live and knows its parent. -/
theorem child {p c : Handle} (hc : c ∈ a.children p) : a.contains c ∧ a.parent? c = some p := by
  rw [ha.children_eq] at hc
  obtain ⟨r, hr, e, he, rfl⟩ := Tree.mem_children_iff.1 hc
  exact ⟨ha.holds.contains (Forest.mem_handles_of_mem_children (Tree.find?_mem hr) he),
    (ha.below hr).parent?_of_root he⟩

theorem contains_iff_reached (h : Handle) : a.contains h ↔ a.Reached h := by
  constructor
  · intro live
    obtain ⟨e, he, rfl⟩ := ha.exists_entry live
    obtain ⟨x, hx, way⟩ := ha.holds.reached he
    rw [List.mem_singleton.1 hx] at way
    rw [Reached, ha.root]
    exact way
  · intro way
    rcases way.cases_tail with same | ⟨p, -, hc⟩
    · rw [same, ha.root, ha.contains_eq, Tree.contains_iff]
      exact List.mem_cons_self
    · exact (ha.child hc).1

/-- An arena that represents a tree is well-formed. -/
theorem wellFormed : a.WellFormed where
  root := by
    refine ⟨(ha.contains_iff_reached _).2 .refl, ?_⟩
    rw [ha.root]
    exact ha.holds.parent?_of_root List.mem_cons_self
  parent h live other := by
    obtain ⟨e, he, rfl⟩ := ha.exists_entry live
    rcases ha.holds.parent?_cases he with ⟨root, -⟩ | ⟨r, hr, child, same⟩
    · rw [List.mem_singleton.1 root] at other
      exact absurd ha.root.symm other
    · have found := ha.sound.find?_of_mem hr
      refine ⟨_, same, ha.holds.contains (Forest.mem_handles_of_mem_subtrees hr), ?_⟩
      obtain ⟨p, node⟩ := ha.node found
      rw [children, node]
      exact List.count_eq_one_of_mem (((Forest.rootLabels_sublist_preorder _).map _).nodup
        (ha.not_mem_below found).2) (List.mem_map_of_mem child)
  child _ _ := ha.child
  reached := ha.contains_iff_reached
  len := by
    refine ⟨_, List.nodup_range.filter _, fun h => ?_, a.len_eq⟩
    rw [List.mem_filter, List.mem_range, ← ha.contains_iff_reached]
    exact and_iff_right_of_imp lt_of_contains

/-- Slots are only added. -/
theorem length_le_run (changes : List TreeChange) :
    a.slots.length ≤ (a.run changes).slots.length := by
  induction changes generalizing a t with
  | nil => exact Nat.le_refl _
  | cons change changes ih =>
    have fresh := Tree.fresh_perform ha.sound change
    have ha' := ha.perform change
    have longer := fresh.next
    rw [← ha.next, ← ha'.next] at longer
    exact Nat.le_trans longer (ih ha')

/-- A handle that was given out and names no node will name none. -/
theorem not_contains_run (given : h < a.slots.length) (lost : ¬a.contains h)
    (changes : List TreeChange) : ¬(a.run changes).contains h := by
  induction changes generalizing a t with
  | nil => exact lost
  | cons change changes ih =>
    have fresh := Tree.fresh_perform ha.sound change
    have ha' := ha.perform change
    refine ih ha' ?_ fun live => ?_
    · rw [ha'.next]
      exact Nat.lt_of_lt_of_le (ha.next ▸ given) fresh.next
    · rcases fresh.handles h (ha'.only h live) with old | later
      · exact lost (ha.holds.contains old)
      · exact absurd (ha.next ▸ given) (Nat.not_lt.2 later)

end Represents

/-- After every run the arena is the one that holds the tree after the same run. -/
theorem tree_run (kind : TreeKind) (data : NodeData) (changes : List TreeChange) :
    ((withRoot kind data).run changes).tree = changes.foldl Tree.perform (.single kind data) :=
  ((represents_withRoot kind data).run changes).tree_eq

/-- **An arena is always one well-formed tree.** After every run of changes of a new arena, with any
handles, the links make one tree whose nodes are counted by `len`; and if one of its nodes is lost
by more changes, its handle names no node after any others. -/
theorem wellFormed_run (kind : TreeKind) (data : NodeData) (changes : List TreeChange) :
    let a := (withRoot kind data).run changes
    a.WellFormed ∧
      ∀ h, a.contains h → ∀ more, ¬(a.run more).contains h →
        ∀ later, ¬((a.run more).run later).contains h := by
  intro a
  have ha := (represents_withRoot kind data).run changes
  refine ⟨ha.wellFormed, fun h live more lost later => ?_⟩
  have given := Nat.lt_of_lt_of_le (lt_of_contains live) (ha.length_le_run more)
  exact (ha.run more).not_contains_run given lost later

end Arena

end LayeredConfig
