import LayeredConfig.Alignment
import LayeredConfig.Proofs.Tree.Keys
import LayeredConfig.Proofs.Tree.Overrides

/-!
# The texts of a tree

`renameReferences` goes through the nodes one after the other and turns the texts of the childless
string nodes (`Sound.renameReferences_root`). In a tree whose nodes hold what their types say these are
all strings (`WellTyped.renameReferences_root`).
-/

namespace LayeredConfig

/-- A node holds what its type says: a container no value, a scalar no children and no value of
another type. -/
def Rose.WellTyped (n : Rose NodeData) : Prop :=
  if n.label.type.isContainer then n.label.value = none
  else n.children = .nil ∧ ∀ v ∈ n.label.value, v.valueType = n.label.type

instance : DecidablePred Rose.WellTyped := fun n =>
  inferInstanceAs (Decidable (if n.label.type.isContainer then n.label.value = none
    else n.children = .nil ∧ ∀ v ∈ n.label.value, v.valueType = n.label.type))

namespace Rose

variable {n : Rose NodeData}

theorem WellTyped.of_scalar (h : n.WellTyped) (scalar : n.label.type.isScalar) :
    n.children = .nil ∧ ∀ v ∈ n.label.value, v.valueType = n.label.type := by
  unfold WellTyped ValueType.isContainer at h
  rw [scalar] at h
  exact h

theorem WellTyped.of_container (h : n.WellTyped) (container : n.label.type.isContainer) :
    n.label.value = none := by
  unfold WellTyped at h
  rwa [if_pos container] at h

/-- Strings stand in string nodes. -/
theorem WellTyped.type_of_string (h : n.WellTyped) {text : String}
    (hv : n.label.value = some (.string text)) : n.label.type = .string := by
  cases scalar : n.label.type.isScalar with
  | true => exact ((h.of_scalar scalar).2 _ hv).symm
  | false =>
    have none := h.of_container (by rw [ValueType.isContainer, scalar]; rfl)
    rw [hv] at none
    cases none

/-- A value of the same type fits where the other did. -/
theorem WellTyped.congr {n' : Rose NodeData} (h : n.WellTyped)
    (type : n'.label.type = n.label.type)
    (value : n'.label.value.map Scalar.valueType = n.label.value.map Scalar.valueType)
    (children : n.children = .nil → n'.children = .nil) : n'.WellTyped := by
  unfold WellTyped at h ⊢
  rw [type]
  split
  · rename_i container
    rw [if_pos container] at h
    rw [h] at value
    exact Option.map_eq_none_iff.1 value
  · rename_i scalar
    rw [if_neg scalar] at h
    refine ⟨children h.1, fun v hv => ?_⟩
    rw [Option.mem_def.1 hv, Option.map_some] at value
    obtain ⟨w, hw, same⟩ := Option.map_eq_some_iff.1 value.symm
    rw [← same]
    exact h.2 w hw

end Rose

/-- A value with the markers of `old` turned into those of `new`. -/
def Scalar.remarked (m : Markers) (old new : String) : Scalar → Scalar
  | .string text => .string ((m.renamed? text old new).getD text)
  | v => v

theorem Scalar.valueType_remarked (m : Markers) (old new : String) (v : Scalar) :
    (v.remarked m old new).valueType = v.valueType := by
  cases v <;> rfl

/-- The data of a node with the markers of `old` turned into those of `new`. -/
def NodeData.remarked (m : Markers) (old new : String) (d : NodeData) : NodeData :=
  { d with value := d.value.map (.remarked m old new) }

theorem NodeData.remarked_eq_self {m : Markers} {old new : String} {d : NodeData}
    (h : ∀ text, d.value = some (.string text) → (m.renamed? text old new).getD text = text) :
    d.remarked m old new = d := by
  obtain ⟨key, type, value, anchor, aliases, comment⟩ := d
  rcases value with - | text | b | n
  · rfl
  · rw [remarked, Option.map_some, Scalar.remarked, h text rfl]
  · rfl
  · rfl

theorem Forest.map_congr {α β : Type} {g h : α → β} {f : Forest α}
    (same : ∀ a ∈ f.preorder, g a = h a) : f.map g = f.map h := by
  induction f with
  | nil => rfl
  | cons a cs ss ihc ihs =>
    simp only [preorder, List.forall_mem_cons, List.forall_mem_append] at same
    rw [map, map, same.1, ihc same.2.1, ihs same.2.2]

namespace Tree

variable {t : Tree} {h : Handle} {m : Markers} {old new : String}

/-- Every node holds what its type says. -/
def WellTyped (t : Tree) : Prop := (t.top.map (·.data)).Everywhere Rose.WellTyped

instance (t : Tree) : Decidable t.WellTyped :=
  inferInstanceAs (Decidable ((t.top.map (·.data)).Everywhere Rose.WellTyped))

theorem WellTyped.map (ht : t.WellTyped) {g : Entry → Entry}
    (type : ∀ e, (g e).data.type = e.data.type)
    (value : ∀ e, (g e).data.value.map Scalar.valueType = e.data.value.map Scalar.valueType) :
    ({ t with top := t.top.map g } : Tree).WellTyped := by
  unfold WellTyped at ht ⊢
  rw [Rose.everywhere_map] at ht ⊢
  rw [Rose.everywhere_map]
  refine ht.mono fun n hn => hn.congr (type n.label) (value n.label) fun leaf => ?_
  cases hc : n.children with
  | nil =>
    rw [Rose.map, Rose.map, hc]
    rfl
  | cons a cs ss =>
    rw [Rose.map, hc] at leaf
    cases leaf

theorem WellTyped.of_find? (ht : t.WellTyped) {r : Rose Entry} (hr : t.find? h = some r) :
    (r.map (·.data)).WellTyped := by
  unfold WellTyped at ht
  rw [Rose.everywhere_map, Rose.everywhere_iff_ofRose] at ht
  exact ht r (find?_mem hr)

theorem map_top_congr {g g' : Entry → Entry} (same : ∀ e ∈ t.forest.preorder, g e = g' e) :
    ({ t with top := t.top.map g } : Tree) = { t with top := t.top.map g' } := by
  have : t.top.map g = t.top.map g' := by
    rw [forest, Rose.preorder_ofRose, Rose.preorder, List.forall_mem_cons] at same
    rw [Rose.map, Rose.map, same.1, Forest.map_congr same.2]
  rw [this]

/-- What is written over a node counts by what it makes of the data of the node. -/
theorem Sound.modify_congr (ht : t.Sound) {f g : NodeData → NodeData}
    (same : ∀ d, t.data? h = some d → f d = g d) : t.modify h f = t.modify h g := by
  refine map_top_congr fun e he => ?_
  dsimp only
  split
  · rename_i named
    rw [same e.data (beq_iff_eq.1 named ▸ ht.data?_of_mem he)]
  · rfl

theorem modify_id (t : Tree) (h : Handle) : t.modify h id = t := by
  have identity : t.top.relabel (·.handle == h) (fun e => { e with data := id e.data }) = t.top := by
    rw [Rose.relabel]
    conv_rhs => rw [← Rose.map_id t.top]
    refine congrArg (t.top.map ·) (funext fun e => ?_)
    split <;> rfl
  rw [Tree.modify, identity]

theorem WellTyped.isLeaf (hw : t.WellTyped) {r : Rose Entry} (hr : t.find? h = some r)
    (scalar : r.label.data.type.isScalar) : t.isLeaf h := by
  have none := ((hw.of_find? hr).of_scalar scalar).1
  rw [Tree.isLeaf, below_of_find? hr]
  cases hc : r.children with
  | nil => rfl
  | cons a cs ss =>
    rw [Rose.map, hc] at none
    cases none

/-- Below a node without children there is nothing to take away. -/
theorem Sound.clear_of_isLeaf (ht : t.Sound) (leaf : t.isLeaf h) : t.clear h = t := by
  refine ext_forest ?_ rfl rfl
  rw [Tree.clear, forest_adjust]
  refine Forest.adjust_eq_self fun r hr named => ?_
  have found := ht.find?_of_mem hr
  rw [beq_iff_eq.1 named] at found
  rw [Tree.isLeaf, below_of_find? found] at leaf
  cases hc : r.children with
  | nil => rfl
  | cons a cs ss =>
    rw [hc] at leaf
    cases leaf

/-- The first component of a fold whose steps change it as `g` does, while `P` holds of it. -/
theorem fst_foldl {α β γ : Type} {step : α × β → γ → α × β} {g : α → γ → α} {P : α → Prop}
    (kept : ∀ a c, P a → P (g a c)) (same : ∀ x c, P x.1 → (step x c).1 = g x.1 c) (cs : List γ)
    (x : α × β) (hx : P x.1) : (cs.foldl step x).1 = cs.foldl g x.1 := by
  induction cs generalizing x with
  | nil => rfl
  | cons c cs ih =>
    have next := same x c hx
    rw [List.foldl_cons, ih _ (next ▸ kept _ _ hx), next, List.foldl_cons]

/-! ## References -/

/-- The data of a node of a tree with its references renamed: the text of a childless string node has
the markers of `old` turned into those of `new`. -/
def referring (t : Tree) (m : Markers) (old new : String) (h : Handle) (d : NodeData) : NodeData :=
  if d.type = .string ∧ t.isLeaf h then d.remarked m old new else d

theorem isLeaf_map {g : Entry → Entry} (handle : ∀ e, (g e).handle = e.handle) (t : Tree)
    (x : Handle) : ({ t with top := t.top.map g } : Tree).isLeaf x = t.isLeaf x := by
  have found : ({ t with top := t.top.map g } : Tree).find? x = (t.find? x).map (Rose.map g) :=
    Forest.find?_map g (fun e => by rw [handle]) t.forest
  unfold Tree.isLeaf Tree.below
  rw [found]
  cases t.find? x with
  | none => rfl
  | some r => cases hc : r.children <;> simp [Rose.map, hc, Forest.map, Forest.isEmpty]

/-- A node whose text is renamed is a childless string node. -/
theorem renamedText?_of_data? {d : NodeData} (hd : t.data? h = some d) :
    t.renamedText? m old new h =
      if d.type = .string ∧ t.isLeaf h then (d.value.bind Scalar.string?).bind (m.renamed? · old new)
      else none := by
  unfold renamedText?
  rw [hd]
  obtain ⟨key, type, value, anchor, aliases, comment⟩ := d
  cases type with
  | string =>
    rcases value with - | text | b | n
    · simp
    · simp [Scalar.string?]
    · simp [Scalar.string?]
    · simp [Scalar.string?]
  | _ => simp

/-- One step of the renaming. -/
theorem Sound.modify_referring (ht : t.Sound) :
    (match t.renamedText? m old new h with
      | some text => t.modify h fun d => { d with value := some (.string text) }
      | none => t) = t.modify h (t.referring m old new h) := by
  cases renamed : t.renamedText? m old new h with
  | some text =>
    refine ht.modify_congr fun d hd => ?_
    rw [renamedText?_of_data? hd, Option.ite_none_right_eq_some] at renamed
    obtain ⟨leaf, renamed⟩ := renamed
    obtain ⟨before, string, renamed⟩ := Option.bind_eq_some_iff.1 renamed
    obtain ⟨v, hv, string⟩ := Option.bind_eq_some_iff.1 string
    cases v with
    | string s =>
      cases string
      rw [referring, if_pos leaf, NodeData.remarked, hv, Option.map_some, Scalar.remarked, renamed,
        Option.getD_some]
    | boolean => cases string
    | number => cases string
  | none =>
    have same : t.modify h (t.referring m old new h) = t.modify h id := by
      refine ht.modify_congr fun d hd => ?_
      rw [renamedText?_of_data? hd] at renamed
      unfold referring
      split
      · rename_i leaf
        rw [if_pos leaf] at renamed
        refine NodeData.remarked_eq_self fun text string => ?_
        rw [string] at renamed
        exact congrArg (·.getD text) renamed
      · rfl
    rw [same, modify_id]

/-- **References renamed through a tree.** -/
theorem Sound.renameReferences_root (ht : t.Sound) :
    (t.renameReferences t.root m old new).1 =
      { t with top := t.top.map fun e =>
          { e with data := t.referring m old new e.handle e.data } } := by
  have all : t.descendants t.root = t.forest.handles := by
    rw [descendants, find?_root]
    dsimp only
    rw [Forest.handles, forest, Rose.preorder_ofRose]
  rw [renameReferences, all]
  refine (fst_foldl (g := fun u h => u.modify h (t.referring m old new h))
    (P := fun u => u.Sound ∧ ∀ h, u.isLeaf h = t.isLeaf h)
    (fun u h hu => ⟨hu.1.modify h _, fun x => ?_⟩) (fun x h hx => ?_) _ (t, 0)
    ⟨ht, fun _ => rfl⟩).trans ?_
  · rw [Tree.modify, Rose.relabel, isLeaf_map (fun e => by split <;> rfl), hu.2]
  · have same : x.1.referring m old new h = t.referring m old new h := by
      unfold referring
      rw [hx.2]
    rw [← same, ← hx.1.modify_referring]
    dsimp only
    cases x.1.renamedText? m old new h <;> rfl
  · rw [foldl_modifyAt (Or.inl ht.distinct)]
    exact map_top_congr fun e he => if_pos (List.mem_map_of_mem he)

/-- In a well-typed tree every string has its markers turned. -/
theorem WellTyped.renameReferences_root (hw : t.WellTyped) (ht : t.Sound) :
    (t.renameReferences t.root m old new).1 = t.modifyAll (.remarked m old new) := by
  rw [ht.renameReferences_root, modifyAll]
  refine map_top_congr fun e he => congrArg (Entry.mk e.handle) ?_
  rw [← Forest.map_label_subtrees, List.mem_map] at he
  obtain ⟨r, hr, rfl⟩ := he
  have found := ht.find?_of_mem hr
  unfold referring
  split
  · rfl
  · rename_i other
    refine (NodeData.remarked_eq_self fun text string => absurd ?_ other).symm
    have type : r.label.data.type = .string := (hw.of_find? found).type_of_string string
    exact ⟨type, hw.isLeaf found (by rw [type]; rfl)⟩

end Tree

end LayeredConfig
