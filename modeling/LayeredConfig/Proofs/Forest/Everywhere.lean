import LayeredConfig.Proofs.Forest.Roots

/-!
# What holds of every tree of a forest

`Everywhere P` says that `P` holds of every tree of a forest, at any depth. It holds of a forest iff
it holds of its trees (`everywhere_iff_roots`), so whatever moves whole trees keeps it.
-/

namespace LayeredConfig

variable {α β : Type} {P Q : Rose α → Prop}

/-- Every tree of the forest, at any depth, satisfies `P`. -/
def Forest.Everywhere (P : Rose α → Prop) (f : Forest α) : Prop := ∀ r ∈ f.subtrees, P r

/-- The tree and every tree below it satisfy `P`. -/
def Rose.Everywhere (P : Rose α → Prop) (r : Rose α) : Prop := P r ∧ r.children.Everywhere P

instance [DecidablePred P] (f : Forest α) : Decidable (f.Everywhere P) :=
  inferInstanceAs (Decidable (∀ r ∈ f.subtrees, P r))

instance [DecidablePred P] (r : Rose α) : Decidable (r.Everywhere P) :=
  inferInstanceAs (Decidable (P r ∧ r.children.Everywhere P))

namespace Forest

@[simp] theorem everywhere_nil : (Forest.nil : Forest α).Everywhere P := fun _ h => by cases h

theorem everywhere_cons {a : α} {cs ss : Forest α} :
    (Forest.cons a cs ss).Everywhere P ↔ P ⟨a, cs⟩ ∧ cs.Everywhere P ∧ ss.Everywhere P := by
  simp [Everywhere, subtrees, or_imp, forall_and]

theorem everywhere_iff_roots {f : Forest α} :
    f.Everywhere P ↔ ∀ r ∈ f.roots, r.Everywhere P := by
  induction f with
  | nil => simp [roots]
  | cons a cs ss _ ih =>
    rw [everywhere_cons, ih, roots, List.forall_mem_cons, Rose.Everywhere, and_assoc]

theorem Everywhere.mono {f : Forest α} (hf : f.Everywhere P) (h : ∀ r, P r → Q r) :
    f.Everywhere Q := fun r hr => h r (hf r hr)

theorem Everywhere.and {f : Forest α} (hP : f.Everywhere P) (hQ : f.Everywhere Q) :
    f.Everywhere fun r => P r ∧ Q r := fun r hr => ⟨hP r hr, hQ r hr⟩

/-- The forest below a tree of a forest has that tree's trees among its own. -/
theorem Everywhere.of_mem_subtrees {f : Forest α} (hf : f.Everywhere P) {r : Rose α}
    (h : r ∈ f.subtrees) : r.Everywhere P := by
  induction f with
  | nil => cases h
  | cons a cs ss ihc ihs =>
    obtain ⟨ha, hcs, hss⟩ := everywhere_cons.1 hf
    rw [subtrees, List.mem_cons, List.mem_append] at h
    rcases h with rfl | h | h
    · exact ⟨ha, hcs⟩
    · exact ihc hcs h
    · exact ihs hss h

theorem Everywhere.addMissing {own more : Forest α} {key : α → String} (ho : own.Everywhere P)
    (hm : more.Everywhere P) : (own.addMissing key more).Everywhere P := by
  refine everywhere_iff_roots.2 fun r hr => ?_
  rcases mem_roots_addMissing hr with hr | hr
  · exact everywhere_iff_roots.1 ho r hr
  · exact everywhere_iff_roots.1 hm r hr

theorem everywhere_label {p : α → Prop} {f : Forest α} :
    f.Everywhere (fun r => p r.label) ↔ ∀ a ∈ f.preorder, p a := by
  rw [← map_label_subtrees, List.forall_mem_map, Everywhere]

theorem find?_mem_subtrees {p : α → Bool} {f : Forest α} {r : Rose α} (h : f.find? p = some r) :
    r ∈ f.subtrees := by
  induction f with
  | nil => cases h
  | cons a cs ss ihc ihs =>
    rw [find?] at h
    rw [subtrees, List.mem_cons, List.mem_append]
    split at h
    · exact Or.inl (Option.some.inj h).symm
    · rcases Option.or_eq_some_iff.1 h with h | ⟨-, h⟩
      · exact Or.inr (Or.inl (ihc h))
      · exact Or.inr (Or.inr (ihs h))

theorem subtrees_map (h : α → β) (f : Forest α) :
    (f.map h).subtrees = f.subtrees.map (Rose.map h) := by
  induction f with
  | nil => rfl
  | cons a cs ss ihc ihs => simp [map, subtrees, Rose.map, ihc, ihs]

theorem roots_map (h : α → β) (f : Forest α) : (f.map h).roots = f.roots.map (Rose.map h) := by
  induction f with
  | nil => rfl
  | cons a cs ss _ ih => simp [map, roots, Rose.map, ih]

theorem everywhere_map {P : Rose β → Prop} {h : α → β} {f : Forest α} :
    (f.map h).Everywhere P ↔ f.Everywhere fun r => P (r.map h) := by
  simp [Everywhere, subtrees_map]

end Forest

namespace Rose

theorem Everywhere.mono {r : Rose α} (hr : r.Everywhere P) (h : ∀ r, P r → Q r) :
    r.Everywhere Q := ⟨h r hr.1, hr.2.mono h⟩

theorem Everywhere.and {r : Rose α} (hP : r.Everywhere P) (hQ : r.Everywhere Q) :
    r.Everywhere fun r => P r ∧ Q r := ⟨⟨hP.1, hQ.1⟩, hP.2.and hQ.2⟩

theorem Everywhere.root {r : Rose α} (hr : r.Everywhere P) {c : Rose α}
    (h : c ∈ r.children.roots) : c.Everywhere P := Forest.everywhere_iff_roots.1 hr.2 c h

theorem everywhere_label {p : α → Prop} {r : Rose α} :
    r.Everywhere (fun r => p r.label) ↔ ∀ a ∈ r.preorder, p a := by
  rw [Everywhere, Forest.everywhere_label, preorder, List.forall_mem_cons]

theorem everywhere_map {P : Rose β → Prop} {h : α → β} {r : Rose α} :
    (r.map h).Everywhere P ↔ r.Everywhere fun r => P (r.map h) := by
  rw [Everywhere, map, Forest.everywhere_map, Everywhere, map]

/-- What holds of the new label of every node is said of the old labels. -/
theorem everywhere_map_label {p : β → Prop} {h : α → β} {r : Rose α} :
    (r.map h).Everywhere (fun n => p n.label) ↔ ∀ a ∈ r.preorder, p (h a) :=
  everywhere_map.trans (everywhere_label (p := fun a => p (h a)))

end Rose

end LayeredConfig
