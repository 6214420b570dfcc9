import LayeredConfig.Proofs.Tree.Handles

/-!
# The ways down a forest

`trails` lists the ways from the trees of a forest down to its nodes. Trees taken out at any depth
(`prune`) take out the ways through their tops (`trails_prune`), and children taken from a node the
ways that go on from it (`trails_childless`). Where handles are distinct, the way to a node is the
one that `trail?` finds (`trail?_of_mem_trails`).
-/

namespace LayeredConfig.Forest

variable {α β : Type}

/-- The ways from the trees down to the nodes, in pre-order of the nodes. -/
def trails : Forest α → List (List α)
  | .nil => []
  | .cons a cs ss => [a] :: (cs.trails.map (a :: ·) ++ ss.trails)

/-- The forest without the trees, at any depth, whose labels satisfy `p`. -/
def prune (p : α → Bool) : Forest α → Forest α
  | .nil => .nil
  | .cons a cs ss => if p a then ss.prune p else .cons a (cs.prune p) (ss.prune p)

variable {p : α → Bool} {f : Forest α} {way : List α}

theorem ne_nil_of_mem_trails (h : way ∈ f.trails) : way ≠ [] := by
  induction f generalizing way with
  | nil => cases h
  | cons a cs ss _ ihs =>
    simp only [trails, List.mem_cons, List.mem_append, List.mem_map] at h
    rcases h with rfl | ⟨below, -, rfl⟩ | h
    · simp
    · simp
    · exact ihs h

/-- Every way ends at its node. -/
theorem map_getLast?_trails (f : Forest α) : f.trails.map List.getLast? = f.preorder.map some := by
  induction f with
  | nil => rfl
  | cons a cs ss ihc ihs =>
    have below : (cs.trails.map (a :: ·)).map List.getLast? = cs.trails.map List.getLast? := by
      rw [List.map_map]
      refine List.map_congr_left fun way h => ?_
      obtain ⟨b, rest, rfl⟩ := List.exists_cons_of_ne_nil (ne_nil_of_mem_trails h)
      exact List.getLast?_cons_cons
    rw [trails, List.map_cons, List.map_append, below, ihc, ihs, preorder, List.map_cons,
      List.map_append]
    rfl

theorem mem_preorder_iff_trails {a : α} :
    a ∈ f.preorder ↔ ∃ way ∈ f.trails, way.getLast? = some a := by
  have same := congrArg (some a ∈ ·) (map_getLast?_trails f)
  simp only [List.mem_map, Option.some.injEq, exists_eq_right] at same
  exact same.symm.to_iff

theorem sublist_preorder_of_mem_trails (h : way ∈ f.trails) : way.Sublist f.preorder := by
  induction f generalizing way with
  | nil => cases h
  | cons b cs ss ihc ihs =>
    simp only [trails, List.mem_cons, List.mem_append, List.mem_map] at h
    rw [preorder]
    rcases h with rfl | ⟨below, hb, rfl⟩ | h
    · exact (List.nil_sublist _).cons_cons b
    · exact ((ihc hb).trans (List.sublist_append_left _ _)).cons_cons b
    · exact ((ihs h).trans (List.sublist_append_right _ _)).cons b

/-- All of a way is in the forest. -/
theorem mem_preorder_of_mem_trails (h : way ∈ f.trails) {a : α} (ha : a ∈ way) :
    a ∈ f.preorder := (sublist_preorder_of_mem_trails h).subset ha

/-- A first part of a way is the way to a node above. -/
theorem mem_trails_of_isPrefix {pre : List α} (h : way ∈ f.trails) (hp : pre <+: way)
    (nonempty : pre ≠ []) : pre ∈ f.trails := by
  induction f generalizing way pre with
  | nil => cases h
  | cons a cs ss ihc ihs =>
    simp only [trails, List.mem_cons, List.mem_append, List.mem_map] at h ⊢
    obtain ⟨b, pre, rfl⟩ := List.exists_cons_of_ne_nil nonempty
    rcases h with rfl | ⟨below, hb, rfl⟩ | h
    · obtain ⟨rfl, rest⟩ := List.cons_prefix_cons.1 hp
      exact Or.inl (by rw [List.prefix_nil.1 rest])
    · obtain ⟨rfl, rest⟩ := List.cons_prefix_cons.1 hp
      by_cases first : pre = []
      · exact Or.inl (by rw [first])
      · exact Or.inr (Or.inl ⟨pre, ihc hb rest first, rfl⟩)
    · exact Or.inr (Or.inr (ihs h hp nonempty))

/-! ## Trees taken out -/

theorem trails_prune (p : α → Bool) (f : Forest α) :
    (f.prune p).trails = f.trails.filter fun way => !way.any p := by
  induction f with
  | nil => rfl
  | cons a cs ss ihc ihs =>
    rw [prune, trails, List.filter_cons, List.filter_append, List.filter_map]
    by_cases ha : p a
    · have none : cs.trails.filter ((fun way => !way.any p) ∘ (a :: ·)) = [] := by
        simp [List.filter_eq_nil_iff, ha]
      rw [if_pos ha, ihs, none]
      simp [ha]
    · have same : ((fun way => !way.any p) ∘ (a :: ·)) = fun way => !way.any p := by
        funext way
        simp [ha]
      rw [if_neg ha, trails, ihc, ihs, same]
      simp [ha]

/-- Children taken from the nodes that satisfy `p`. -/
theorem trails_childless (p : α → Bool) (f : Forest α) :
    (f.adjust p fun _ => .nil).trails = f.trails.filter fun way => !way.dropLast.any p := by
  induction f with
  | nil => rfl
  | cons a cs ss ihc ihs =>
    have last : cs.trails.filter ((fun way => !way.dropLast.any p) ∘ (a :: ·)) =
        cs.trails.filter fun way => !p a && !way.dropLast.any p := by
      refine List.filter_congr fun way h => ?_
      rw [Function.comp_apply, List.dropLast_cons_of_ne_nil (ne_nil_of_mem_trails h), List.any_cons,
        Bool.not_or]
    rw [adjust, trails, trails, List.filter_cons, List.filter_append, List.filter_map, ihs, last]
    by_cases ha : p a
    · simp [ha, trails]
    · simp [ha, ihc]

theorem prune_prune (p q : α → Bool) (f : Forest α) :
    (f.prune p).prune q = f.prune fun a => p a || q a := by
  induction f with
  | nil => rfl
  | cons a cs ss ihc ihs =>
    rw [prune, prune, ← ihc, ← ihs]
    by_cases hp : p a
    · simp [hp]
    · by_cases hq : q a
      · simp [hp, hq, prune]
      · simp [hp, hq, prune]

theorem prune_eq_self (none : ∀ a ∈ f.preorder, ¬p a) : f.prune p = f := by
  induction f with
  | nil => rfl
  | cons a cs ss ihc ihs =>
    simp only [preorder, List.forall_mem_cons, List.forall_mem_append] at none
    rw [prune, if_neg none.1, ihc none.2.1, ihs none.2.2]

/-! ## Handles -/

section Handles

variable {f : Forest Entry} {r : Rose Entry} {e : Entry} {h : Handle} {way : List Entry}

theorem prune_of_not_mem (missing : h ∉ f.handles) : f.prune (·.handle == h) = f :=
  prune_eq_self fun a ha same =>
    missing (mem_handles.2 ⟨a, ha, by simpa using same⟩)

/-- Taken from among the trees. -/
theorem prune_of_mem_rootLabels (distinct : f.handles.Nodup) (he : e ∈ f.rootLabels) :
    f.prune (·.handle == e.handle) = f.filterRoots (·.handle != e.handle) := by
  induction f with
  | nil => cases he
  | cons a cs ss _ ihs =>
    obtain ⟨outside, -, dss, apart⟩ := nodup_handles_cons.1 distinct
    rw [prune, filterRoots]
    rcases List.mem_cons.1 he with rfl | he
    · have others : ss.filterRoots (·.handle != e.handle) = ss := by
        refine filterRoots_eq_self fun r hr => ?_
        have inside : r.label.handle ∈ ss.handles :=
          mem_handles_of_mem_subtrees (mem_subtrees_of_mem_roots hr (Or.inl rfl))
        have other : r.label.handle ≠ e.handle := fun same => outside.2 (same ▸ inside)
        simpa using other
      rw [if_pos (beq_self_eq_true _), if_neg (by simp), prune_of_not_mem outside.2, others]
    · have inside : e.handle ∈ ss.handles :=
        List.mem_map_of_mem (mem_preorder_of_mem_rootLabels he)
      have other := not_beq_of_not_mem outside.2 inside
      rw [if_neg other, if_pos (by simpa using other), ihs dss he,
        prune_of_not_mem fun below => apart below inside]

/-- Taken from among the children of a node. -/
theorem adjust_filterRoots_eq_prune (distinct : f.handles.Nodup) (hr : r ∈ f.subtrees)
    (he : e ∈ r.children.rootLabels) :
    f.adjust (·.handle == r.label.handle) (·.filterRoots (·.handle != e.handle)) =
      f.prune (·.handle == e.handle) := by
  induction f with
  | nil => cases hr
  | cons a cs ss ihc ihs =>
    obtain ⟨outside, dcs, dss, apart⟩ := nodup_handles_cons.1 distinct
    rw [subtrees, List.mem_cons, List.mem_append] at hr
    rw [adjust, prune]
    rcases hr with rfl | hr | hr
    · have inside : e.handle ∈ cs.handles :=
        List.mem_map_of_mem (mem_preorder_of_mem_rootLabels he)
      rw [if_pos (beq_self_eq_true _), if_neg (not_beq_of_not_mem outside.1 inside),
        prune_of_mem_rootLabels dcs he, prune_of_not_mem fun later => apart inside later,
        adjust_of_find?_eq_none (find?_eq_none_iff_handles.2 outside.2)]
    · have there := mem_handles_of_mem_subtrees hr
      have inside := mem_handles_of_mem_children hr he
      rw [if_neg (not_beq_of_not_mem outside.1 there),
        if_neg (not_beq_of_not_mem outside.1 inside), ihc dcs hr,
        prune_of_not_mem fun later => apart inside later,
        adjust_of_find?_eq_none (find?_eq_none_iff_handles.2 fun later => apart there later)]
    · have there := mem_handles_of_mem_subtrees hr
      have inside := mem_handles_of_mem_children hr he
      rw [if_neg (not_beq_of_not_mem outside.2 there),
        if_neg (not_beq_of_not_mem outside.2 inside), ihs dss hr,
        prune_of_not_mem fun below => apart below inside,
        adjust_of_find?_eq_none (find?_eq_none_iff_handles.2 fun below => apart below there)]

/-- The way to a node is the one that its handle finds. -/
theorem trail?_of_mem_trails (distinct : f.handles.Nodup) (hw : way ∈ f.trails)
    (last : way.getLast? = some e) : f.trail? (·.handle == e.handle) = some way := by
  induction f generalizing way with
  | nil => cases hw
  | cons a cs ss ihc ihs =>
    obtain ⟨outside, dcs, dss, apart⟩ := nodup_handles_cons.1 distinct
    simp only [trails, List.mem_cons, List.mem_append, List.mem_map] at hw
    rw [trail?]
    rcases hw with rfl | ⟨below, hb, rfl⟩ | hw
    · cases last
      exact if_pos (beq_self_eq_true _)
    · obtain ⟨b, rest, rfl⟩ := List.exists_cons_of_ne_nil (ne_nil_of_mem_trails hb)
      rw [List.getLast?_cons_cons] at last
      have inside : e.handle ∈ cs.handles := List.mem_map_of_mem
        (mem_preorder_of_mem_trails hb (List.mem_of_getLast? last))
      rw [if_neg (not_beq_of_not_mem outside.1 inside), ihc dcs hb last]
      rfl
    · have inside : e.handle ∈ ss.handles := List.mem_map_of_mem
        (mem_preorder_of_mem_trails hw (List.mem_of_getLast? last))
      have missing : cs.trail? (·.handle == e.handle) = none :=
        trail?_eq_none_iff.2 (find?_eq_none_iff_handles.2 fun below => apart below inside)
      rw [if_neg (not_beq_of_not_mem outside.2 inside), missing, ihs dss hw last]
      rfl

end Handles

end LayeredConfig.Forest
