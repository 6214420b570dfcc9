import LayeredConfig.Proofs.Forest.Everywhere

/-!
# Forests that change in one place

`adjust` changes what is below a label, `map` the labels. What a change leaves alone is found where
it was (`find?_adjust`, `find?_map`). A property of nodes is `Shallow` when it looks at a node and
its children and no further; a change has to keep it at the place of the change only
(`everywhere_adjust`).
-/

namespace LayeredConfig

variable {α β : Type}

namespace Forest

/-! ## The labels of the trees -/

theorem rootLabels_eq_map_roots (f : Forest α) : f.rootLabels = f.roots.map (·.label) := by
  induction f with
  | nil => rfl
  | cons a cs ss _ ih => rw [rootLabels, roots, List.map_cons, ih]

theorem label_mem_rootLabels {f : Forest α} {r : Rose α} (hr : r ∈ f.roots) :
    r.label ∈ f.rootLabels := by
  rw [rootLabels_eq_map_roots]
  exact List.mem_map_of_mem hr

theorem rootKeys_eq_map_rootLabels (key : α → String) (f : Forest α) :
    f.rootKeys key = f.rootLabels.map key := by
  rw [rootLabels_eq_map_roots, List.map_map]
  rfl

@[simp] theorem rootLabels_append (f g : Forest α) :
    (f ++ g).rootLabels = f.rootLabels ++ g.rootLabels := by
  simp [rootLabels_eq_map_roots]

@[simp] theorem rootLabels_map (h : α → β) (f : Forest α) :
    (f.map h).rootLabels = f.rootLabels.map h := by
  induction f with
  | nil => rfl
  | cons a cs ss _ ih => rw [map, rootLabels, rootLabels, List.map_cons, ih]

@[simp] theorem rootLabels_adjust (p : α → Bool) (h : Forest α → Forest α) (f : Forest α) :
    (f.adjust p h).rootLabels = f.rootLabels := by
  induction f with
  | nil => rfl
  | cons a cs ss _ ih => rw [adjust, rootLabels, rootLabels, ih]

@[simp] theorem rootLabels_filterRoots (p : α → Bool) (f : Forest α) :
    (f.filterRoots p).rootLabels = f.rootLabels.filter p := by
  rw [rootLabels_eq_map_roots, roots_filterRoots, rootLabels_eq_map_roots, List.filter_map]
  rfl

theorem rootLabels_mapRoots (h : Nat → α → α) (f : Forest α) (first : Nat) :
    (f.mapRoots h first).rootLabels = f.rootLabels.mapIdx fun i => h (first + i) := by
  induction f generalizing first with
  | nil => rfl
  | cons a cs ss _ ih =>
    rw [mapRoots, rootLabels, ih, rootLabels, List.mapIdx_cons]
    simp only [Nat.add_zero, Nat.add_right_comm first 1, Nat.add_assoc]

theorem mem_preorder_of_mem_rootLabels {f : Forest α} {a : α} (h : a ∈ f.rootLabels) :
    a ∈ f.preorder := by
  induction f with
  | nil => cases h
  | cons b cs ss _ ih =>
    rw [preorder, List.mem_cons, List.mem_append]
    rcases List.mem_cons.1 h with rfl | h
    · exact Or.inl rfl
    · exact Or.inr (Or.inr (ih h))

theorem rootLabels_sublist_preorder (f : Forest α) : f.rootLabels.Sublist f.preorder := by
  induction f with
  | nil => exact List.Sublist.refl _
  | cons a cs ss _ ih => exact (ih.trans (List.sublist_append_right _ _)).cons_cons a

theorem preorder_filterRoots_sublist (keep : α → Bool) (f : Forest α) :
    (f.filterRoots keep).preorder.Sublist f.preorder := by
  induction f with
  | nil => exact List.Sublist.refl _
  | cons a cs ss _ ih =>
    rw [filterRoots]
    split
    · exact ((List.Sublist.refl _).append ih).cons_cons a
    · exact (ih.trans (List.sublist_append_right _ _)).cons a

/-- What a change by position leaves alone in every label stays. -/
theorem map_preorder_mapRoots {k : α → β} {h : Nat → α → α} (same : ∀ i a, k (h i a) = k a) (f : Forest α)
    (first : Nat) : (f.mapRoots h first).preorder.map k = f.preorder.map k := by
  induction f generalizing first with
  | nil => rfl
  | cons a cs ss _ ih => simp only [mapRoots, preorder, List.map_cons, List.map_append, same, ih]

theorem preorder_eq_flatMap_roots (f : Forest α) : f.preorder = f.roots.flatMap Rose.preorder := by
  induction f with
  | nil => rfl
  | cons a cs ss _ ih => rw [preorder, ih, roots, List.flatMap_cons]; rfl

/-- What is below a tree of a forest is in the forest. -/
theorem mem_preorder_of_mem_subtrees {f : Forest α} {r : Rose α} (hr : r ∈ f.subtrees) {a : α}
    (ha : a ∈ r.preorder) : a ∈ f.preorder := by
  induction f with
  | nil => cases hr
  | cons b cs ss ihc ihs =>
    rw [subtrees, List.mem_cons, List.mem_append] at hr
    rw [preorder, List.mem_cons, List.mem_append]
    rcases hr with rfl | hr | hr
    · rcases List.mem_cons.1 ha with rfl | ha
      · exact Or.inl rfl
      · exact Or.inr (Or.inl ha)
    · exact Or.inr (Or.inl (ihc hr))
    · exact Or.inr (Or.inr (ihs hr))

theorem mem_preorder_of_child {f : Forest α} {r : Rose α} (hr : r ∈ f.subtrees) {a : α}
    (ha : a ∈ r.children.rootLabels) : a ∈ f.preorder :=
  mem_preorder_of_mem_subtrees hr (List.mem_cons_of_mem _ (mem_preorder_of_mem_rootLabels ha))

theorem mem_subtrees_of_mem_roots {f : Forest α} {r x : Rose α} (hr : r ∈ f.roots)
    (hx : x = r ∨ x ∈ r.children.subtrees) : x ∈ f.subtrees := by
  induction f with
  | nil => cases hr
  | cons a cs ss _ ih =>
    rw [subtrees, List.mem_cons, List.mem_append]
    rcases List.mem_cons.1 hr with rfl | hr
    · exact hx.imp_right Or.inl
    · exact Or.inr (Or.inr (ih hr))

/-- What is below a subtree is a subtree. -/
theorem mem_subtrees_of_children {f : Forest α} {r x : Rose α} (hr : r ∈ f.subtrees)
    (hx : x ∈ r.children.subtrees) : x ∈ f.subtrees := by
  induction f with
  | nil => cases hr
  | cons a cs ss ihc ihs =>
    rw [subtrees, List.mem_cons, List.mem_append] at hr ⊢
    rcases hr with rfl | hr | hr
    · exact Or.inr (Or.inl hx)
    · exact Or.inr (Or.inl (ihc hr))
    · exact Or.inr (Or.inr (ihs hr))

theorem subtrees_append (f g : Forest α) : (f ++ g).subtrees = f.subtrees ++ g.subtrees := by
  induction f with
  | nil => rfl
  | cons a cs ss _ ih => simp [subtrees, ih]

theorem map_map {γ : Type} (g : β → γ) (h : α → β) (f : Forest α) :
    (f.map h).map g = f.map (g ∘ h) := by
  induction f with
  | nil => rfl
  | cons a cs ss ihc ihs => simp only [map, ihc, ihs, Function.comp_apply]

theorem map_id (f : Forest α) : f.map id = f := by
  induction f with
  | nil => rfl
  | cons a cs ss ihc ihs => rw [map, ihc, ihs, id]

/-! ## Looking for a label -/

variable {p : α → Bool}

theorem find?_label {f : Forest α} {r : Rose α} (h : f.find? p = some r) : p r.label := by
  induction f with
  | nil => cases h
  | cons a cs ss ihc ihs =>
    rw [find?] at h
    split at h
    · rename_i ha
      cases h
      exact ha
    · rcases Option.or_eq_some_iff.1 h with h | ⟨-, h⟩
      · exact ihc h
      · exact ihs h

theorem find?_eq_none_iff {f : Forest α} : f.find? p = none ↔ ∀ a ∈ f.preorder, ¬p a := by
  induction f with
  | nil => simp [find?, preorder]
  | cons a cs ss ihc ihs =>
    rw [find?, preorder, List.forall_mem_cons, List.forall_mem_append, ← ihc, ← ihs]
    by_cases ha : p a
    · simp [ha]
    · simp [ha]

/-- Changing labels does not change where a label is found. -/
theorem find?_map {q : β → Bool} (h : α → β) (hq : ∀ a, q (h a) = p a) (f : Forest α) :
    (f.map h).find? q = (f.find? p).map (Rose.map h) := by
  induction f with
  | nil => rfl
  | cons a cs ss ihc ihs =>
    rw [map, find?, hq, ihc, ihs, find?]
    cases p a with
    | true => rfl
    | false =>
      simp only [Bool.false_eq_true, if_false]
      cases cs.find? p <;> rfl

/-- Where the first label is found, a change shows. -/
theorem find?_adjust (h : Forest α → Forest α) (f : Forest α) :
    (f.adjust p h).find? p = (f.find? p).map fun r => ⟨r.label, h r.children⟩ := by
  induction f with
  | nil => rfl
  | cons a cs ss ihc ihs =>
    rw [adjust, find?, find?, ihs]
    by_cases ha : p a
    · rw [if_pos ha, if_pos ha, if_pos ha]; rfl
    · rw [if_neg ha, if_neg ha, if_neg ha, ihc]
      cases cs.find? p <;> rfl

theorem adjust_eq_self {h : Forest α → Forest α} {f : Forest α}
    (same : ∀ r ∈ f.subtrees, p r.label → h r.children = r.children) : f.adjust p h = f := by
  induction f with
  | nil => rfl
  | cons a cs ss ihc ihs =>
    simp only [subtrees, List.forall_mem_cons, List.forall_mem_append] at same
    rw [adjust, ihc same.2.1, ihs same.2.2]
    split
    · rename_i ha
      rw [same.1 ha]
    · rfl

theorem adjust_of_find?_eq_none {h : Forest α → Forest α} {f : Forest α}
    (none : f.find? p = none) : f.adjust p h = f :=
  adjust_eq_self fun _ hr ha => absurd ha
    (find?_eq_none_iff.1 none _ (mem_preorder_of_mem_subtrees hr List.mem_cons_self))

/-- Labels that are changed without a look at what is below them may be changed before or after. -/
theorem map_adjust {q : α → Bool} {g : α → α} {h h' : Forest α → Forest α}
    (hq : ∀ a, q (g a) = q a) (hh : ∀ f : Forest α, (h f).map g = h' (f.map g)) (f : Forest α) :
    (f.adjust q h).map g = (f.map g).adjust q h' := by
  induction f with
  | nil => rfl
  | cons a cs ss ihc ihs =>
    rw [adjust, map, map, adjust, hq, ihs, ← ihc, ← hh]
    cases q a <;> rfl

end Forest

/-! ## Shallow properties -/

/-- A property of nodes that looks at a node and its children. -/
def Shallow (Q : α → List α → Prop) (r : Rose α) : Prop := Q r.label r.children.rootLabels

namespace Forest

variable {Q : α → List α → Prop} {p : α → Bool} {h : Forest α → Forest α}

/-- A change keeps a shallow property that it keeps where it happens. -/
theorem everywhere_adjust {f : Forest α} (hf : f.Everywhere (Shallow Q))
    (hh : ∀ r ∈ f.subtrees, p r.label →
      Q r.label (h r.children).rootLabels ∧ (h r.children).Everywhere (Shallow Q)) :
    (f.adjust p h).Everywhere (Shallow Q) := by
  induction f with
  | nil => exact everywhere_nil
  | cons a cs ss ihc ihs =>
    obtain ⟨ha, hcs, hss⟩ := everywhere_cons.1 hf
    simp only [subtrees, List.forall_mem_cons, List.forall_mem_append] at hh
    rw [adjust]
    by_cases hp : p a
    · rw [if_pos hp]
      exact everywhere_cons.2 ⟨(hh.1 hp).1, (hh.1 hp).2, ihs hss hh.2.2⟩
    · rw [if_neg hp]
      refine everywhere_cons.2 ⟨?_, ihc hcs hh.2.1, ihs hss hh.2.2⟩
      unfold Shallow
      rw [rootLabels_adjust]
      exact ha

theorem everywhere_append {P : Rose α → Prop} {f g : Forest α} :
    (f ++ g).Everywhere P ↔ f.Everywhere P ∧ g.Everywhere P := by
  unfold Everywhere
  rw [subtrees_append, List.forall_mem_append]

theorem Everywhere.filterRoots {P : Rose α → Prop} {f : Forest α} (hf : f.Everywhere P)
    (keep : α → Bool) : (f.filterRoots keep).Everywhere P := by
  rw [everywhere_iff_roots] at hf ⊢
  intro r hr
  rw [roots_filterRoots] at hr
  exact hf r (List.mem_of_mem_filter hr)

/-- New labels on the trees of a forest keep what does not depend on them. -/
theorem Everywhere.mapRoots {f : Forest α} (hf : f.Everywhere (Shallow Q)) {g : Nat → α → α}
    (hg : ∀ i a cs, Q a cs → Q (g i a) cs) (first : Nat) :
    (f.mapRoots g first).Everywhere (Shallow Q) := by
  induction f generalizing first with
  | nil => exact everywhere_nil
  | cons a cs ss _ ih =>
    obtain ⟨ha, hcs, hss⟩ := everywhere_cons.1 hf
    rw [Forest.mapRoots]
    exact everywhere_cons.2 ⟨hg first a _ ha, hcs, ih hss (first + 1)⟩

end Forest

namespace Rose

variable {P : Rose α → Prop} {r : Rose α}

theorem everywhere_iff_ofRose : r.Everywhere P ↔ (Forest.ofRose r).Everywhere P := by
  rw [Forest.ofRose, Forest.everywhere_cons, and_iff_left Forest.everywhere_nil, Everywhere]

theorem preorder_ofRose (r : Rose α) : (Forest.ofRose r).preorder = r.preorder := by
  rw [Forest.ofRose, Forest.preorder, Forest.preorder, List.append_nil, preorder]

theorem ofRose_map (h : α → β) (r : Rose α) : Forest.ofRose (r.map h) = (Forest.ofRose r).map h := rfl

theorem map_id (r : Rose α) : r.map id = r := by
  rw [map, Forest.map_id, id]

theorem map_map {γ : Type} (g : β → γ) (h : α → β) (r : Rose α) :
    (r.map h).map g = r.map (g ∘ h) := by
  rw [map, map, map, Forest.map_map, Function.comp_apply]

end Rose

end LayeredConfig
