import LayeredConfig.Proofs.Forest.Everywhere

/-!
# Forests that differ in order

`Reordered p free f f'` says that two forests differ in the order of the trees below labels that
satisfy `p`, at any depth, and in the order of their own trees only if `free`. Where keys are
distinct, this is so iff every key names trees that differ in this way (`Reordered.findRoot?`,
`reordered_of_findRoot?`), so functions that look keys up respect it.
-/

namespace LayeredConfig

open scoped List

variable {α β : Type} {p : α → Bool} {key : α → String}

/-- The forests differ in the order of the trees below labels that satisfy `p`, and in that of their
own trees if `free`. -/
inductive Forest.Reordered (p : α → Bool) : Bool → Forest α → Forest α → Prop
  | nil {free : Bool} : Reordered p free .nil .nil
  | cons {free : Bool} {a : α} {cs cs' ss ss' : Forest α} :
    Reordered p (p a) cs cs' → Reordered p free ss ss' →
      Reordered p free (.cons a cs ss) (.cons a cs' ss')
  | swap {a b : α} {as bs ss : Forest α} :
    Reordered p true (.cons a as (.cons b bs ss)) (.cons b bs (.cons a as ss))
  | trans {free : Bool} {f g h : Forest α} :
    Reordered p free f g → Reordered p free g h → Reordered p free f h

/-- The trees differ in the order of what is below labels that satisfy `p`. -/
structure Rose.Reordered (p : α → Bool) (r r' : Rose α) : Prop where
  label : r'.label = r.label
  children : r.children.Reordered p (p r.label) r'.children

theorem optionRel_trans {R : α → α → Prop} (hR : ∀ {x y z}, R x y → R y z → R x z)
    {a b c : Option α} (hab : Option.Rel R a b) (hbc : Option.Rel R b c) : Option.Rel R a c := by
  cases hab with
  | none => exact hbc
  | some hab =>
    cases hbc with
    | some hbc => exact .some (hR hab hbc)

namespace Forest

variable {free : Bool} {f f' : Forest α}

theorem Reordered.refl (p : α → Bool) (free : Bool) (f : Forest α) : f.Reordered p free f := by
  induction f generalizing free with
  | nil => exact .nil
  | cons a cs ss ihc ihs => exact .cons (ihc _) (ihs _)

theorem Reordered.symm (h : f.Reordered p free f') : f'.Reordered p free f := by
  induction h with
  | nil => exact .nil
  | cons _ _ ihc ihs => exact .cons ihc ihs
  | swap => exact .swap
  | trans _ _ ih ih' => exact ih'.trans ih

end Forest

namespace Rose

theorem Reordered.refl (p : α → Bool) (r : Rose α) : r.Reordered p r :=
  ⟨rfl, .refl p _ _⟩

theorem Reordered.symm {r r' : Rose α} (h : r.Reordered p r') : r'.Reordered p r :=
  ⟨h.label.symm, by rw [h.label]; exact h.children.symm⟩

theorem Reordered.trans {r s t : Rose α} (h : r.Reordered p s) (h' : s.Reordered p t) :
    r.Reordered p t :=
  ⟨h'.label.trans h.label, h.children.trans (by rw [← h.label]; exact h'.children)⟩

end Rose

namespace Forest

variable {free : Bool} {f f' : Forest α}

theorem Reordered.cons_rose {r r' : Rose α} {ss ss' : Forest α} (h : r.Reordered p r')
    (hs : ss.Reordered p free ss') :
    (Forest.cons r.label r.children ss).Reordered p free (.cons r'.label r'.children ss') := by
  rw [h.label]
  exact .cons h.children hs

/-! ## What does not depend on the order -/

theorem Reordered.isEmpty_eq (h : f.Reordered p free f') : f'.isEmpty = f.isEmpty := by
  induction h with
  | nil | cons | swap => rfl
  | trans _ _ ih ih' => exact ih'.trans ih

theorem Reordered.rootKeys_perm (h : f.Reordered p free f') (key : α → String) :
    (f'.rootKeys key).Perm (f.rootKeys key) := by
  induction h with
  | nil => exact .refl _
  | cons _ _ _ ih => exact ih.cons _
  | swap => exact .swap _ _ _
  | trans _ _ ih ih' => exact ih'.trans ih

theorem Reordered.nodup_rootKeys (h : f.Reordered p free f') (hf : (f.rootKeys key).Nodup) :
    (f'.rootKeys key).Nodup := (h.rootKeys_perm key).nodup_iff.2 hf

theorem Reordered.preorder_perm (h : f.Reordered p free f') : f'.preorder.Perm f.preorder := by
  induction h with
  | nil => exact .refl _
  | cons _ _ ihc ihs => exact (ihc.append ihs).cons _
  | @swap a b as bs ss =>
    calc b :: (bs.preorder ++ a :: (as.preorder ++ ss.preorder))
      _ ~ b :: a :: (bs.preorder ++ (as.preorder ++ ss.preorder)) := List.perm_middle.cons b
      _ ~ b :: a :: (as.preorder ++ (bs.preorder ++ ss.preorder)) :=
        ((List.perm_append_comm_assoc _ _ _).cons a).cons b
      _ ~ a :: b :: (as.preorder ++ (bs.preorder ++ ss.preorder)) := .swap a b _
      _ ~ a :: (as.preorder ++ b :: (bs.preorder ++ ss.preorder)) := List.perm_middle.symm.cons a
  | trans _ _ ih ih' => exact ih'.trans ih

/-- A subtree has one in the other forest that differs from it in order. -/
theorem Reordered.exists_mem_subtrees (h : f.Reordered p free f') {r' : Rose α}
    (hr : r' ∈ f'.subtrees) : ∃ r ∈ f.subtrees, r.Reordered p r' := by
  induction h generalizing r' with
  | nil => cases hr
  | cons hcs _ ihc ihs =>
    simp only [subtrees, List.mem_cons, List.mem_append] at hr ⊢
    rcases hr with rfl | hr | hr
    · exact ⟨_, Or.inl rfl, rfl, hcs⟩
    · obtain ⟨r, hr, same⟩ := ihc hr
      exact ⟨r, Or.inr (Or.inl hr), same⟩
    · obtain ⟨r, hr, same⟩ := ihs hr
      exact ⟨r, Or.inr (Or.inr hr), same⟩
  | swap =>
    refine ⟨r', ?_, .refl p r'⟩
    simp only [subtrees, List.mem_cons, List.mem_append] at hr ⊢
    tauto
  | trans _ _ ih ih' =>
    obtain ⟨s, hs, same'⟩ := ih' hr
    obtain ⟨r, hr, same⟩ := ih hs
    exact ⟨r, hr, same.trans same'⟩

/-- What does not depend on the order holds everywhere in both forests. -/
theorem Reordered.everywhere {P : Rose α → Prop} (hP : ∀ r r', r.Reordered p r' → P r → P r')
    (h : f.Reordered p free f') (hf : f.Everywhere P) : f'.Everywhere P := by
  intro r' hr'
  obtain ⟨r, hr, same⟩ := h.exists_mem_subtrees hr'
  exact hP r r' same (hf r hr)

/-- In forests whose own trees are in the same order, the trees at a position differ below. -/
theorem Reordered.getElem?_roots (h : f.Reordered p free f') (fixed : free = false) (i : Nat) :
    Option.Rel (Rose.Reordered p) f.roots[i]? f'.roots[i]? := by
  induction h generalizing i with
  | nil => exact .none
  | cons hcs _ _ ihs =>
    cases i with
    | zero => exact .some ⟨rfl, hcs⟩
    | succ i => exact ihs fixed i
  | swap => cases fixed
  | trans _ _ ih ih' => exact optionRel_trans Rose.Reordered.trans (ih fixed i) (ih' fixed i)

/-! ## Looking up -/

/-- Where keys are distinct, a key names trees that differ in order. -/
theorem Reordered.findRoot? (h : f.Reordered p free f') (hf : (f.rootKeys key).Nodup) (k : String) :
    Option.Rel (Rose.Reordered p) (f.findRoot? (key · == k)) (f'.findRoot? (key · == k)) := by
  induction h with
  | nil => exact .none
  | cons hcs _ _ ihs =>
    rw [findRoot?_cons, findRoot?_cons]
    split
    · exact .some ⟨rfl, hcs⟩
    · exact ihs (List.nodup_cons.1 hf).2
  | @swap a b as bs ss =>
    have other : key a ≠ key b := fun same =>
      (List.nodup_cons.1 hf).1 (List.mem_cons.2 (Or.inl same))
    simp only [findRoot?_cons]
    by_cases ha : key a = k
    · rw [if_pos ha, if_neg fun hb => other (ha.trans hb.symm), if_pos ha]
      exact .some (.refl p _)
    · rw [if_neg ha, if_neg ha]
      split
      · exact .some (.refl p _)
      · cases ss.findRoot? (key · == k) with
        | none => exact .none
        | some r => exact .some (.refl p r)
  | trans hfg _ ih ih' =>
    exact optionRel_trans Rose.Reordered.trans (ih hf) (ih' (hfg.nodup_rootKeys hf))

/-- The tree that a key names can be moved to the front. -/
theorem reordered_front (hf : (f.rootKeys key).Nodup) {k : String} {r : Rose α}
    (h : f.findRoot? (key · == k) = some r) :
    f.Reordered p true (.cons r.label r.children (f.filterRoots (key · != k))) := by
  induction f with
  | nil => cases h
  | cons a cs ss _ ih =>
    obtain ⟨new, hss⟩ := List.nodup_cons.1 hf
    rw [findRoot?_cons] at h
    rw [filterRoots]
    by_cases same : key a = k
    · rw [if_pos same] at h
      cases h
      have others : ∀ x ∈ ss.roots, (key x.label != k) = true := by
        intro x hx
        rw [bne_iff_ne, ← same]
        exact fun h => new (mem_rootKeys.2 ⟨x, hx, h⟩)
      rw [if_neg (by simp [same]), filterRoots_eq_self others]
      exact .refl p _ _
    · rw [if_neg same] at h
      rw [if_pos (by simpa using same)]
      exact .trans (.cons (.refl p _ _) (ih hss h)) .swap

/-- Forests with distinct keys differ in order if every key names trees that do. -/
theorem reordered_of_findRoot? (hf : (f.rootKeys key).Nodup) (hf' : (f'.rootKeys key).Nodup)
    (h : ∀ k, Option.Rel (Rose.Reordered p) (f.findRoot? (key · == k))
      (f'.findRoot? (key · == k))) : f.Reordered p true f' := by
  induction f generalizing f' with
  | nil =>
    cases f' with
    | nil => exact .nil
    | cons a cs ss =>
      have named := h (key a)
      rw [findRoot?_cons, if_pos rfl] at named
      cases named
  | cons a cs ss _ ih =>
    obtain ⟨new, hss⟩ := List.nodup_cons.1 hf
    have named := h (key a)
    rw [findRoot?_cons, if_pos rfl] at named
    generalize found : f'.findRoot? (key · == key a) = x at named
    cases named with
    | some same =>
      -- the tree of the first key is moved to the front; the others keep their keys
      rename_i r
      refine .trans ?_ (reordered_front hf' found).symm
      rw [same.label]
      refine .cons same.children (ih hss (nodup_rootKeys_filterRoots hf' _) fun k => ?_)
      rw [findRoot?_filterRoots]
      split
      · rename_i here
        rw [here, findRoot?_eq_none_iff.2 new]
        exact .none
      · rename_i other
        have named := h k
        rwa [findRoot?_cons, if_neg (Ne.symm other)] at named

/-! ## Functions that respect the order -/

theorem Reordered.mapRoots {g : Nat → α → α} (hg : ∀ i a, p (g i a) = p a)
    (h : f.Reordered p free f') (fixed : free = false) (first : Nat) :
    (f.mapRoots g first).Reordered p false (f'.mapRoots g first) := by
  induction h generalizing first with
  | nil => exact .nil
  | cons hcs _ _ ihs => exact .cons (by rw [hg]; exact hcs) (ihs fixed (first + 1))
  | swap => cases fixed
  | trans _ _ ih ih' => exact (ih fixed first).trans (ih' fixed first)

theorem Reordered.filterRoots (q : α → Bool) (h : f.Reordered p free f') :
    (f.filterRoots q).Reordered p free (f'.filterRoots q) := by
  induction h with
  | nil => exact .nil
  | cons hcs _ _ ihs =>
    rw [Forest.filterRoots, Forest.filterRoots]
    split
    · exact .cons hcs ihs
    · exact ihs
  | @swap a b as bs ss =>
    simp only [Forest.filterRoots]
    cases q a <;> cases q b
    exacts [.refl p _ _, .refl p _ _, .refl p _ _, .swap]
  | trans _ _ ih ih' => exact ih.trans ih'

end Forest

theorem Rose.Reordered.everywhere {P : Rose α → Prop} (hP : ∀ r r', r.Reordered p r' → P r → P r')
    {r r' : Rose α} (h : r.Reordered p r') (hr : r.Everywhere P) : r'.Everywhere P :=
  ⟨hP r r' h hr.1, h.children.everywhere hP hr.2⟩

end LayeredConfig
