import LayeredConfig.Proofs.Forest.Relabelled
import LayeredConfig.Proofs.Tree.Handles

/-!
# Places in a tree

The place of a subtree is the way down to it, by positions among siblings. `changeBelow` changes the
forest below the node at a place:

* `subtree?_changeBelow_above`, `subtree?_changeBelow_apart` : what a change does to the other
  subtrees, and `label_changeBelow` to the nodes that are not below its place;
* `map_changeBelow` : relabelling commutes with a change;
* `exists_subtree?` : every subtree has a place;
* `adjust_eq_changeBelow` : where handles are distinct, a change at a handle is one at its place.
-/

namespace LayeredConfig

variable {α β : Type}

namespace Rose

/-- The subtree at a place. -/
def subtree? : List Nat → Rose α → Option (Rose α)
  | [], r => some r
  | i :: p, r => r.children.roots[i]?.bind (subtree? p)

/-- The tree with the forest below the node at a place changed. -/
def changeBelow (f : Forest α → Forest α) : List Nat → Rose α → Rose α
  | [], r => ⟨r.label, f r.children⟩
  | i :: p, r => ⟨r.label, .ofRoots (r.children.roots.modify i (changeBelow f p))⟩

variable {f : Forest α → Forest α} {p q : List Nat} {r s : Rose α}

@[simp] theorem subtree?_nil (r : Rose α) : r.subtree? [] = some r := rfl

theorem subtree?_cons (i : Nat) (p : List Nat) (r : Rose α) :
    r.subtree? (i :: p) = r.children.roots[i]?.bind (subtree? p) := rfl

@[simp] theorem label_changeBelow_top (f : Forest α → Forest α) (p : List Nat) (r : Rose α) :
    (r.changeBelow f p).label = r.label := by
  cases p <;> rfl

theorem subtree?_append (p q : List Nat) (r : Rose α) :
    r.subtree? (p ++ q) = (r.subtree? p).bind (subtree? q) := by
  induction p generalizing r with
  | nil => rfl
  | cons i p ih =>
    rw [List.cons_append, subtree?_cons, subtree?_cons, Option.bind_assoc]
    exact congrArg _ (funext fun c => ih c)

/-- The last step of a way leads from a node to one of its children. -/
theorem subtree?_concat (p : List Nat) (i : Nat) (r : Rose α) :
    r.subtree? (p ++ [i]) = (r.subtree? p).bind fun s => s.children.roots[i]? := by
  rw [subtree?_append]
  refine congrArg _ (funext fun s => ?_)
  rw [subtree?_cons]
  exact Option.bind_fun_some _

theorem mem_subtrees_of_subtree? (hs : r.subtree? p = some s) :
    s ∈ (Forest.ofRose r).subtrees := by
  rw [Forest.ofRose, Forest.subtrees, Forest.subtrees, List.append_nil, List.mem_cons]
  induction p generalizing r with
  | nil => exact Or.inl (Option.some.inj hs).symm
  | cons i p ih =>
    obtain ⟨c, hc, hs⟩ := Option.bind_eq_some_iff.1 hs
    exact Or.inr (Forest.mem_subtrees_of_mem_roots (List.mem_of_getElem? hc) (ih hs))

theorem exists_subtree?_below {cs : Forest α} (hs : s ∈ cs.subtrees) :
    ∃ (i : Nat) (p : List Nat), cs.roots[i]?.bind (subtree? p) = some s := by
  induction cs with
  | nil => cases hs
  | cons a cs ss ihc ihs =>
    rw [Forest.subtrees, List.mem_cons, List.mem_append] at hs
    rcases hs with rfl | hs | hs
    · exact ⟨0, [], rfl⟩
    · obtain ⟨i, p, found⟩ := ihc hs
      exact ⟨0, i :: p, found⟩
    · obtain ⟨i, p, found⟩ := ihs hs
      exact ⟨i + 1, p, found⟩

/-- Every subtree has a place. -/
theorem exists_subtree? (hs : s ∈ (Forest.ofRose r).subtrees) : ∃ p, r.subtree? p = some s := by
  rw [Forest.ofRose, Forest.subtrees, Forest.subtrees, List.append_nil, List.mem_cons] at hs
  rcases hs with rfl | hs
  · exact ⟨[], rfl⟩
  · obtain ⟨i, p, found⟩ := exists_subtree?_below hs
    exact ⟨i :: p, found⟩

/-! ## What a change leaves -/

theorem subtree?_changeBelow_cons (f : Forest α → Forest α) (i j : Nat) (p q : List Nat)
    (r : Rose α) : (r.changeBelow f (i :: p)).subtree? (j :: q) =
      r.children.roots[j]?.bind fun c => (if i = j then c.changeBelow f p else c).subtree? q := by
  rw [subtree?_cons, changeBelow, Forest.roots_ofRoots, List.getElem?_modify]
  cases r.children.roots[j]? <;> rfl

/-- The subtrees above a change have it below them. -/
theorem subtree?_changeBelow_above (f : Forest α → Forest α) (q p : List Nat) (r : Rose α) :
    (r.changeBelow f (q ++ p)).subtree? q = (r.subtree? q).map (changeBelow f p) := by
  induction q generalizing r with
  | nil => rfl
  | cons i q ih =>
    rw [List.cons_append, subtree?_changeBelow_cons, subtree?_cons, Option.map_bind]
    exact congrArg _ (funext fun c => by rw [if_pos rfl, ih, Function.comp_apply])

/-- The subtrees that are neither above nor below a change stay as they are. -/
theorem subtree?_changeBelow_apart (f : Forest α → Forest α) (below : ¬p <+: q) (above : ¬q <+: p)
    (r : Rose α) : (r.changeBelow f p).subtree? q = r.subtree? q := by
  induction p generalizing q r with
  | nil => exact absurd List.nil_prefix below
  | cons i p ih =>
    cases q with
    | nil => exact absurd List.nil_prefix above
    | cons j q =>
      rw [subtree?_changeBelow_cons, subtree?_cons]
      refine congrArg _ (funext fun c => ?_)
      by_cases same : i = j
      · subst same
        rw [List.prefix_cons_inj] at below above
        rw [if_pos rfl, ih below above]
      · rw [if_neg same]

/-- The nodes that are not below a change stay where they are. -/
theorem label_changeBelow (f : Forest α → Forest α) (outside : p <+: q → q = p) (r : Rose α) :
    ((r.changeBelow f p).subtree? q).map (·.label) = (r.subtree? q).map (·.label) := by
  by_cases above : q <+: p
  · obtain ⟨rest, rfl⟩ := above
    rw [subtree?_changeBelow_above, Option.map_map]
    exact congrArg (Option.map · _) (funext fun s => label_changeBelow_top f rest s)
  · have below : ¬p <+: q := fun below => above (outside below ▸ List.prefix_refl _)
    rw [subtree?_changeBelow_apart f below above]

/-- A change looks at nothing but what is below its place. -/
theorem changeBelow_congr {g : Forest α → Forest α} (hs : r.subtree? p = some s)
    (same : f s.children = g s.children) : r.changeBelow f p = r.changeBelow g p := by
  induction p generalizing r with
  | nil =>
    cases hs
    rw [changeBelow, changeBelow, same]
  | cons i p ih =>
    obtain ⟨c, hc, hs⟩ := Option.bind_eq_some_iff.1 hs
    rw [changeBelow, changeBelow]
    refine congrArg _ (congrArg _ (List.ext_getElem? fun j => ?_))
    rw [List.getElem?_modify, List.getElem?_modify]
    by_cases here : i = j
    · subst here
      simp [hc, ih hs]
    · simp [here]

/-- The subtree at the place of a change. -/
theorem subtree?_changeBelow_self (hs : r.subtree? p = some s) :
    (r.changeBelow f p).subtree? p = some ⟨s.label, f s.children⟩ := by
  have at_ := subtree?_changeBelow_above f p [] r
  rw [List.append_nil, hs] at at_
  exact at_

/-- Two changes at one place. -/
theorem changeBelow_changeBelow (g f : Forest α → Forest α) (p : List Nat) (r : Rose α) :
    (r.changeBelow f p).changeBelow g p = r.changeBelow (fun cs => g (f cs)) p := by
  induction p generalizing r with
  | nil => rfl
  | cons i p ih =>
    rw [changeBelow, changeBelow, changeBelow, Forest.roots_ofRoots]
    refine congrArg _ (congrArg _ (List.ext_getElem? fun j => ?_))
    simp only [List.getElem?_modify, Option.map_eq_map, Option.map_map]
    refine congrArg (Option.map · _) (funext fun c => ?_)
    by_cases here : i = j
    · simp [here, ih]
    · simp [here]

/-- Relabelling commutes with a change that does not depend on what is changed of the labels. -/
theorem map_changeBelow {g : α → β} {f' : Forest β → Forest β}
    (hf : ∀ cs, (f cs).map g = f' (cs.map g)) (p : List Nat) (r : Rose α) :
    (r.changeBelow f p).map g = (r.map g).changeBelow f' p := by
  induction p generalizing r with
  | nil => exact congrArg _ (hf r.children)
  | cons i p ih =>
    have children : (Forest.ofRoots (r.children.roots.modify i (changeBelow f p))).map g =
        .ofRoots ((r.children.map g).roots.modify i (changeBelow f' p)) := by
      apply Forest.roots_injective
      rw [Forest.roots_map, Forest.roots_ofRoots, Forest.roots_ofRoots, Forest.roots_map]
      refine List.ext_getElem? fun j => ?_
      simp only [List.getElem?_map, List.getElem?_modify]
      cases r.children.roots[j]? with
      | none => rfl
      | some c =>
        by_cases here : i = j
        · simp [here, ih]
        · simp [here]
    rw [changeBelow, map, children]
    rfl

end Rose

/-! ## Places and handles -/

namespace Forest

theorem roots_adjust (p : α → Bool) (h : Forest α → Forest α) (f : Forest α) :
    (f.adjust p h).roots = f.roots.map (Rose.adjust p h) := by
  induction f with
  | nil => rfl
  | cons a cs ss _ ih => rw [adjust, roots, ih, roots, List.map_cons, Rose.adjust]

/-- A handle of a forest is that of one of its trees or below it. -/
theorem mem_handles_iff_roots {f : Forest Entry} {h : Handle} :
    h ∈ f.handles ↔ ∃ r ∈ f.roots, h ∈ (ofRose r).handles := by
  unfold handles
  rw [preorder_eq_flatMap_roots]
  simp only [List.map_flatMap, List.mem_flatMap, Rose.preorder_ofRose]

/-- The trees of a forest with distinct handles share none. -/
theorem handles_apart {f : Forest Entry} (distinct : f.handles.Nodup) {i j : Nat} {r s : Rose Entry}
    (hr : f.roots[i]? = some r) (hs : f.roots[j]? = some s) (other : i ≠ j) {h : Handle}
    (inside : h ∈ (ofRose r).handles) : h ∉ (ofRose s).handles := by
  induction f generalizing i j with
  | nil => cases hr
  | cons e cs ss _ ih =>
    have apart := (nodup_handles_cons.1 distinct).2.2.2
    have outside := (nodup_handles_cons.1 distinct).1.2
    have first : ∀ {h}, h ∈ (ofRose ⟨e, cs⟩).handles → h ∉ ss.handles := by
      intro h hh
      rw [ofRose, handles_cons, handles_nil, List.append_nil] at hh
      rcases List.mem_cons.1 hh with rfl | hh
      · exact outside
      · exact fun later => apart hh later
    cases i with
    | zero =>
      cases hr
      cases j with
      | zero => exact absurd rfl other
      | succ j =>
        exact fun later => first inside (mem_handles_iff_roots.2 ⟨s, List.mem_of_getElem? hs, later⟩)
    | succ i =>
      cases j with
      | zero =>
        cases hs
        exact fun later => first later (mem_handles_iff_roots.2 ⟨r, List.mem_of_getElem? hr, inside⟩)
      | succ j => exact ih (nodup_handles_cons.1 distinct).2.2.1 hr hs fun same => other (same ▸ rfl)

theorem nodup_handles_of_mem_roots {f : Forest Entry} (distinct : f.handles.Nodup) {r : Rose Entry}
    (hr : r ∈ f.roots) : (ofRose r).handles.Nodup := by
  induction f with
  | nil => cases hr
  | cons e cs ss _ ih =>
    obtain ⟨outside, dcs, dss, -⟩ := nodup_handles_cons.1 distinct
    rcases List.mem_cons.1 hr with rfl | hr
    · rw [ofRose, handles_cons, handles_nil, List.append_nil]
      exact List.nodup_cons.2 ⟨outside.1, dcs⟩
    · exact ih dss hr

end Forest

namespace Rose

variable {p : List Nat} {r s : Rose Entry}

theorem adjust_of_not_mem {h : Handle} (missing : h ∉ (Forest.ofRose r).handles)
    (f : Forest Entry → Forest Entry) : r.adjust (·.handle == h) f = r := by
  have same := Forest.adjust_of_find?_eq_none (h := f) (Forest.find?_eq_none_iff_handles.2 missing)
  rw [Forest.ofRose, Forest.adjust, Forest.adjust] at same
  injection same with label children
  rw [adjust, children]

/-- Where handles are distinct, a change at a handle is one at its place. -/
theorem adjust_eq_changeBelow (distinct : (Forest.ofRose r).handles.Nodup)
    (hs : r.subtree? p = some s) (f : Forest Entry → Forest Entry) :
    r.adjust (·.handle == s.label.handle) f = r.changeBelow f p := by
  induction p generalizing r with
  | nil =>
    cases hs
    rw [adjust, if_pos (beq_self_eq_true _), changeBelow]
  | cons i p ih =>
    obtain ⟨c, hc, hs⟩ := Option.bind_eq_some_iff.1 hs
    obtain ⟨outside, below, -, -⟩ := Forest.nodup_handles_cons.1 distinct
    have inside : s.label.handle ∈ (Forest.ofRose c).handles :=
      Forest.mem_handles_of_mem_subtrees (mem_subtrees_of_subtree? hs)
    have deeper : s.label.handle ∈ r.children.handles :=
      Forest.mem_handles_iff_roots.2 ⟨c, List.mem_of_getElem? hc, inside⟩
    rw [adjust, if_neg (Forest.not_beq_of_not_mem outside.1 deeper), changeBelow]
    refine congrArg _ (Forest.roots_injective ?_)
    rw [Forest.roots_adjust, Forest.roots_ofRoots]
    refine List.ext_getElem? fun j => ?_
    rw [List.getElem?_map, List.getElem?_modify]
    cases hj : r.children.roots[j]? with
    | none => rfl
    | some d =>
      by_cases here : i = j
      · subst here
        rw [hc] at hj
        cases hj
        have there := ih (Forest.nodup_handles_of_mem_roots below (List.mem_of_getElem? hc)) hs
        simp [there]
      · have missing := Forest.handles_apart below hc hj here inside
        simp [here, adjust_of_not_mem missing]

end Rose

end LayeredConfig
