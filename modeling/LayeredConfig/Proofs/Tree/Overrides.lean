import LayeredConfig.Alignment
import LayeredConfig.Proofs.Tree.Handles

/-!
# The overrides of a node

Following a path leads strictly below the node where it starts (`follow_below`), so each override
lies below the environment it is searched in, and the overrides of one node lie in environments of
their own: no two of them have one parent (`Sound.overrides_apart`). Data changed at every override
are changed as by one map over the tree (`foldl_modify`).
-/

namespace LayeredConfig

namespace Forest

variable {f : Forest Entry} {r s : Rose Entry} {h : Handle}

/-- The trees of a forest have no handle in common. -/
theorem eq_of_mem_roots (hf : f.handles.Nodup) (hr : r ∈ f.roots) (hs : s ∈ f.roots)
    (inr : h ∈ r.preorder.map (·.handle)) (ins : h ∈ s.preorder.map (·.handle)) : r = s := by
  induction f with
  | nil => cases hr
  | cons a cs ss _ ih =>
    obtain ⟨ha, -, hss, apart⟩ := nodup_handles_cons.1 hf
    have below : ∀ x ∈ ss.roots, h ∈ x.preorder.map (·.handle) → h ∈ ss.handles := by
      intro x hx inside
      obtain ⟨e, he, rfl⟩ := List.mem_map.1 inside
      exact List.mem_map_of_mem
        (mem_preorder_of_mem_subtrees (mem_subtrees_of_mem_roots hx (Or.inl rfl)) he)
    have first : ∀ x ∈ ss.roots, h ∈ x.preorder.map (·.handle) →
        h ∉ (⟨a, cs⟩ : Rose Entry).preorder.map (·.handle) := by
      intro x hx inside
      rw [Rose.preorder, List.map_cons, List.mem_cons, not_or]
      refine ⟨?_, fun hcs => apart hcs (below x hx inside)⟩
      rintro rfl
      exact ha.2 (below x hx inside)
    rcases List.mem_cons.1 hr with rfl | hr <;> rcases List.mem_cons.1 hs with rfl | hs
    · rfl
    · exact absurd inr (first s hs ins)
    · exact absurd ins (first r hr inr)
    · exact ih hss hr hs

end Forest

namespace Tree

variable {t : Tree} {r x : Rose Entry} {path : List String} {h o : Handle}

theorem stepAligned_mem {key : String} (hx : stepAligned r key = some x) : x ∈ r.children.roots := by
  unfold stepAligned at hx
  split at hx
  · exact List.mem_of_head? hx
  · exact Forest.findRoot?_mem hx

theorem follow_append (step : Rose Entry → String → Option (Rose Entry)) (r : Rose Entry)
    (path rest : List String) :
    follow step r (path ++ rest) = (follow step r path).bind (follow step · rest) := by
  induction path generalizing r with
  | nil => rfl
  | cons key path ih =>
    rw [List.cons_append, follow, follow, Option.bind_assoc]
    exact congrArg _ (funext ih)

theorem follow_concat (step : Rose Entry → String → Option (Rose Entry)) (r : Rose Entry)
    (path : List String) (key : String) :
    follow step r (path ++ [key]) = (follow step r path).bind (step · key) := by
  rw [follow_append]
  refine congrArg _ (funext fun s => ?_)
  show (step s key).bind some = step s key
  exact Option.bind_fun_some _

theorem mem_subtrees_of_step {key : String} {f : Forest Entry} (hr : r ∈ f.subtrees)
    (hs : stepAligned r key = some x) : x ∈ f.subtrees :=
  Forest.mem_subtrees_of_children hr
    (Forest.mem_subtrees_of_mem_roots (stepAligned_mem hs) (Or.inl rfl))

theorem mem_subtrees_of_follow {f : Forest Entry} (hr : r ∈ f.subtrees)
    (hs : follow stepAligned r path = some x) : x ∈ f.subtrees := by
  induction path generalizing r with
  | nil =>
    cases hs
    exact hr
  | cons key path ih =>
    obtain ⟨c, hc, hs⟩ := Option.bind_eq_some_iff.1 hs
    exact ih (mem_subtrees_of_step hr hc) hs

/-- Where a path of at least one key ends, the node above is at or below the start. -/
theorem follow_below (hx : follow stepAligned r path = some x) (hp : path ≠ []) :
    ∃ y, (y = r ∨ y ∈ r.children.subtrees) ∧ x ∈ y.children.roots := by
  induction path generalizing r with
  | nil => exact absurd rfl hp
  | cons key path ih =>
    obtain ⟨c, hc, rest⟩ := Option.bind_eq_some_iff.1 hx
    have child := stepAligned_mem hc
    cases path with
    | nil =>
      cases rest
      exact ⟨r, Or.inl rfl, child⟩
    | cons key' path =>
      obtain ⟨y, hy, below⟩ := ih rest (List.cons_ne_nil _ _)
      exact ⟨y, Or.inr (Forest.mem_subtrees_of_mem_roots child hy), below⟩

theorem mem_overrides (ho : o ∈ t.overrides path) :
    path ≠ [] ∧ ∃ environment ∈ t.children t.root, t.findAligned? environment path = some o := by
  unfold overrides at ho
  split at ho
  · cases ho
  · rename_i nonempty
    refine ⟨?_, List.mem_filterMap.1 ho⟩
    rintro rfl
    exact nonempty rfl

theorem find?_root (t : Tree) : t.find? t.root = some t.top := by
  unfold find? forest Forest.ofRose root Forest.find?
  exact if_pos (beq_self_eq_true _)

/-- An override has a parent, in the environment where the override is found. -/
theorem Sound.parent_of_override (ht : t.Sound) (ho : o ∈ t.overrides path) :
    ∃ r ∈ t.top.children.roots, t.findAligned? r.label.handle path = some o ∧
      ∃ y, (y = r ∨ y ∈ r.children.subtrees) ∧ t.parent? o = some y.label.handle := by
  obtain ⟨hp, environment, inside, found⟩ := mem_overrides ho
  obtain ⟨top, htop, e, he, rfl⟩ := mem_children_iff.1 inside
  cases (find?_root t).symm.trans htop
  rw [Forest.rootLabels_eq_map_roots] at he
  obtain ⟨r, hr, rfl⟩ := List.mem_map.1 he
  have inTree : ∀ y, y = r ∨ y ∈ r.children.subtrees → y ∈ t.forest.subtrees := fun y hy =>
    List.mem_cons_of_mem _ (List.mem_append_left _ (Forest.mem_subtrees_of_mem_roots hr hy))
  refine ⟨r, hr, found, ?_⟩
  unfold findAligned? walk? at found
  rw [if_neg (by simpa using hp), ht.find?_of_mem (inTree r (Or.inl rfl))] at found
  obtain ⟨x, hx, rfl⟩ := Option.map_eq_some_iff.1 found
  obtain ⟨y, hy, child⟩ := follow_below hx hp
  exact ⟨y, hy, ht.parent?_of_child (inTree y hy) (Forest.label_mem_rootLabels child)⟩

/-- An override is no environment. -/
theorem Sound.not_mem_overrides_of_root (ht : t.Sound) (ho : o ∈ t.overrides path) :
    o ∉ t.top.children.rootLabels.map (·.handle) := by
  intro environment
  obtain ⟨r, hr, -, y, hy, above⟩ := ht.parent_of_override ho
  have root : t.parent? o = some t.root :=
    ht.parent?_eq_some_iff.2 (List.mem_map.2 (by
      rw [below_of_find? (find?_root t)]
      exact List.mem_map.1 environment))
  -- the parent of an override is below the root
  have inside : y.label.handle ∈ t.top.children.handles :=
    Forest.mem_handles_of_mem_subtrees (Forest.mem_subtrees_of_mem_roots hr hy)
  have distinct := ht.distinct
  rw [forest, Forest.ofRose, Forest.nodup_handles_cons] at distinct
  rw [Option.some.inj (above.symm.trans root)] at inside
  exact distinct.1.1 inside

/-- No two overrides of a node are siblings. -/
theorem Sound.overrides_apart (ht : t.Sound) {o o' : Handle} (ho : o ∈ t.overrides path)
    (ho' : o' ∈ t.overrides path) (siblings : t.parent? o = t.parent? o') : o = o' := by
  obtain ⟨r, hr, found, y, hy, above⟩ := ht.parent_of_override ho
  obtain ⟨r', hr', found', y', hy', above'⟩ := ht.parent_of_override ho'
  have same : y.label.handle = y'.label.handle := by
    rw [above, above'] at siblings
    exact Option.some.inj siblings
  have inside : ∀ {r y : Rose Entry}, y = r ∨ y ∈ r.children.subtrees →
      y.label.handle ∈ r.preorder.map (·.handle) := by
    rintro r y (rfl | hy)
    · exact List.mem_cons_self
    · exact List.mem_cons_of_mem _ (Forest.mem_handles_of_mem_subtrees hy)
  have distinct : t.top.children.handles.Nodup := by
    have all := ht.distinct
    rw [forest, Forest.ofRose, Forest.nodup_handles_cons] at all
    exact all.2.1
  have environment : r = r' :=
    Forest.eq_of_mem_roots distinct hr hr' (inside hy) (same ▸ inside hy')
  rw [environment, found'] at found
  exact (Option.some.inj found).symm

/-! ## The key of an override -/

/-- What is read off a list two by two comes in two parts, with the element in the middle in both. -/
theorem zipWith_tail_append {α β : Type} (f : α → α → β) (above below : List α) (x : α) :
    List.zipWith f (above ++ x :: below) (above ++ x :: below).tail =
      List.zipWith f (above ++ [x]) (above ++ [x]).tail ++ List.zipWith f (x :: below) below := by
  induction above with
  | nil => rfl
  | cons a above ih =>
    cases above with
    | nil => rfl
    | cons b above => exact congrArg (f a b :: ·) ih

/-- The alignment path of a node ends with its key as seen from its parent. -/
theorem Sound.alignedPath_concat (ht : t.Sound) (hr : r ∈ t.forest.subtrees) {e : Entry}
    (he : e ∈ r.children.rootLabels) :
    ∃ path, t.alignedPath e.handle = path ++ [alignedKey r.label e] := by
  obtain ⟨way, hway⟩ := Forest.trail?_of_mem_children ht.distinct hr he
  unfold alignedPath trail
  rw [hway, Option.getD_some]
  exact ⟨_, zipWith_tail_append alignedKey way [e] r.label⟩

/-- The last step towards an override. -/
theorem exists_step_of_mem_overrides {key : String} (ho : o ∈ t.overrides (path ++ [key])) :
    ∃ r ∈ t.forest.subtrees, ∃ x, stepAligned r key = some x ∧ x.label.handle = o := by
  obtain ⟨-, environment, -, found⟩ := mem_overrides ho
  unfold findAligned? walk? at found
  rw [if_neg (by simp)] at found
  obtain ⟨top, hr, found⟩ := Option.bind_eq_some_iff.1 found
  obtain ⟨x, hx, handle⟩ := Option.map_eq_some_iff.1 found
  rw [follow_concat] at hx
  obtain ⟨r, way, step⟩ := Option.bind_eq_some_iff.1 hx
  exact ⟨r, mem_subtrees_of_follow (find?_mem hr) way, x, step, handle⟩

/-- An override bears the last key of its path, unless that is the key of first items. -/
theorem key_of_override {key : String} (hk : key ≠ firstItemKey)
    (ho : o ∈ t.overrides (path ++ [key])) :
    ∃ e ∈ t.forest.preorder, e.handle = o ∧ e.data.key = key := by
  obtain ⟨r, hr, x, step, rfl⟩ := exists_step_of_mem_overrides ho
  refine ⟨x.label, ?_, rfl, ?_⟩
  · exact Forest.mem_preorder_of_mem_subtrees (mem_subtrees_of_step hr step) List.mem_cons_self
  · unfold stepAligned at step
    rw [if_neg fun h => hk h.1] at step
    exact key_of_findRoot? step

/-! ## Data changed at overrides -/

/-- Data changed at several handles, one after the other. No handle comes twice, or changing the data
again does nothing. -/
theorem foldl_modifyAt {f : Handle → NodeData → NodeData} {hs : List Handle}
    (once : hs.Nodup ∨ ∀ h d, f h (f h d) = f h d) (t : Tree) :
    hs.foldl (fun t h => t.modify h (f h)) t =
      { t with top := t.top.map fun e =>
          if e.handle ∈ hs then { e with data := f e.handle e.data } else e } := by
  induction hs generalizing t with
  | nil =>
    have same : (fun e : Entry => if e.handle ∈ ([] : List Handle) then
        ({ e with data := f e.handle e.data } : Entry) else e) = id :=
      funext fun e => if_neg List.not_mem_nil
    rw [List.foldl_nil, same, Rose.map_id]
  | cons h hs ih =>
    rw [List.foldl_cons, ih (once.imp_left List.Nodup.of_cons), Tree.modify, Rose.relabel]
    dsimp only
    rw [Rose.map_map]
    refine congrArg (fun g => ({ t with top := t.top.map g } : Tree)) (funext fun e => ?_)
    rw [Function.comp_apply]
    by_cases same : e.handle = h
    · subst same
      by_cases again : e.handle ∈ hs
      · rcases once with distinct | idempotent
        · exact absurd again (List.nodup_cons.1 distinct).1
        · simp [again, idempotent]
      · simp [again]
    · simp [same]

/-- Data changed in the same way at several handles. -/
theorem foldl_modify {f : NodeData → NodeData} {hs : List Handle}
    (once : hs.Nodup ∨ ∀ d, f (f d) = f d) (t : Tree) :
    hs.foldl (fun t h => t.modify h f) t =
      { t with top := t.top.map fun e => if e.handle ∈ hs then { e with data := f e.data } else e } :=
  foldl_modifyAt (f := fun _ => f) (once.imp_right fun idempotent _ => idempotent) t

end Tree

end LayeredConfig
