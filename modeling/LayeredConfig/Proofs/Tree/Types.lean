import LayeredConfig.Proofs.Tree.Texts

/-!
# Types through the changes of a tree

Whether a node holds what its type says is a matter of its data and of whether it has children
(`NodeData.TypedOver`). So a tree stays well-typed where data change within their types
(`WellTyped.map`), where nodes are taken away (`WellTyped.clear`, `WellTyped.remove`), and where
well-typed drafts are added below a container (`WellTyped.graftAll`). Data written over a node have to
fit what stands below it (`WellTyped.write`).
-/

namespace LayeredConfig

variable {α β : Type}

/-- The data of a node over these children hold what its type says. -/
def NodeData.TypedOver (d : NodeData) (children : List α) : Prop :=
  if d.type.isContainer then d.value = none
  else children = [] ∧ ∀ v ∈ d.value, v.valueType = d.type

namespace NodeData.TypedOver

variable {d : NodeData} {es : List α} {es' : List β}

theorem mono (h : d.TypedOver es) (bottom : es = [] → es' = []) : d.TypedOver es' := by
  unfold TypedOver at h ⊢
  split
  · rename_i container
    rwa [if_pos container] at h
  · rename_i scalar
    rw [if_neg scalar] at h
    exact ⟨bottom h.1, h.2⟩

/-- Anything may stand below a container. -/
theorem of_container (h : d.TypedOver es) (container : d.type.isContainer) : d.TypedOver es' := by
  unfold TypedOver at h ⊢
  rwa [if_pos container] at h ⊢

end NodeData.TypedOver

theorem Rose.wellTyped_iff_shallow {n : Rose NodeData} :
    n.WellTyped ↔ Shallow NodeData.TypedOver n := by
  unfold WellTyped Shallow NodeData.TypedOver
  rw [Forest.rootLabels_eq_nil]

/-- Items keyed by their positions hold what they held. -/
theorem everywhere_wellTyped_numberItems {f : Forest NodeData} (hf : f.Everywhere Rose.WellTyped) :
    (numberItems f).Everywhere Rose.WellTyped := by
  have shallow := hf.mono fun _ => Rose.wellTyped_iff_shallow.1
  refine (Forest.Everywhere.mapRoots shallow ?_ 0).mono fun _ => Rose.wellTyped_iff_shallow.2
  exact fun _ _ _ typed => typed

namespace Tree

variable {t : Tree} {h parent : Handle} {d : NodeData}

theorem wellTyped_iff :
    t.WellTyped ↔ t.forest.Everywhere (Shallow fun e es => e.data.TypedOver es) := by
  unfold WellTyped
  rw [Rose.everywhere_map, Rose.everywhere_iff_ofRose]
  refine forall₂_congr fun r _ => Rose.wellTyped_iff_shallow.trans ?_
  have below : (r.map (·.data)).children.rootLabels = [] ↔ r.children.rootLabels = [] :=
    Forest.rootLabels_eq_nil.trans Rose.children_map_eq_nil
  exact ⟨fun typed => typed.mono below.1, fun typed => typed.mono below.2⟩

theorem WellTyped.everywhere_clear (ht : t.WellTyped) (h : Handle) :
    (t.clear h).forest.Everywhere (Shallow fun e es => e.data.TypedOver es ∧ (e.handle = h → es = [])) :=
  Tree.everywhere_clear (wellTyped_iff.1 ht) (fun _ _ typed => typed.mono fun _ => rfl) h

theorem WellTyped.clear (ht : t.WellTyped) (h : Handle) : (t.clear h).WellTyped :=
  wellTyped_iff.2 ((ht.everywhere_clear h).mono fun _ hr => hr.1)

theorem WellTyped.remove (ht : t.WellTyped) (h : Handle) : (t.remove h).1.WellTyped := by
  unfold Tree.remove
  split
  · rw [wellTyped_iff] at ht ⊢
    refine everywhere_keepChildren ht (fun _ _ _ typed => typed) fun r hr _ => ?_
    refine (ht r hr).mono fun none => ?_
    rw [none]
    split <;> rfl
  · exact ht

theorem data?_clear_self (t : Tree) (h : Handle) : (t.clear h).data? h = t.data? h := by
  unfold data? find?
  rw [Tree.clear, forest_adjust, Forest.find?_adjust, Option.map_map]
  rfl

/-- Well-typed drafts below a container. -/
theorem WellTyped.graftAll (ht : t.WellTyped) (sound : t.Sound) {drafts : Forest NodeData}
    (hd : drafts.Everywhere Rose.WellTyped)
    (container : ∀ d, t.data? parent = some d → d.type.isContainer) :
    (t.graftAll parent drafts).1.WellTyped := by
  rw [wellTyped_iff] at ht ⊢
  refine everywhere_graftAll ht ?_ fun r hr same => (ht r hr).of_container (container _ ?_)
  · rw [← Forest.map_data_number drafts t.next, Forest.everywhere_map] at hd
    refine hd.mono fun r typed => ?_
    exact (Rose.wellTyped_iff_shallow.1 typed).mono fun none =>
      Rose.children_map_eq_nil.1 (Forest.rootLabels_eq_nil.1 none)
  · rw [← same]
    exact sound.data?_of_mem (Forest.mem_preorder_of_mem_subtrees hr List.mem_cons_self)

/-- Data written over a node that fit what stands below it. -/
theorem WellTyped.write (ht : t.WellTyped)
    (fits : ∀ r ∈ t.forest.subtrees, r.label.handle = h → d.TypedOver r.children.rootLabels) :
    (t.modify h fun _ => d).WellTyped := by
  rw [wellTyped_iff] at ht ⊢
  refine everywhere_modify_iff.2 fun r hr => ?_
  show NodeData.TypedOver (written h d r.label).data (r.children.rootLabels.map (written h d))
  have here : (written h d r.label).data.TypedOver r.children.rootLabels := by
    by_cases same : r.label.handle = h
    · rw [written_self same]
      exact fits r hr same
    · rw [written_of_ne same]
      exact ht r hr
  refine here.mono fun none => ?_
  rw [none]
  rfl

theorem WellTyped.modifyAll (ht : t.WellTyped) {f : NodeData → NodeData}
    (type : ∀ d, (f d).type = d.type)
    (value : ∀ d, (f d).value.map Scalar.valueType = d.value.map Scalar.valueType) :
    (t.modifyAll f).WellTyped :=
  ht.map (g := fun e => { e with data := f e.data }) (fun e => type e.data) fun e => value e.data

theorem WellTyped.renameReferences (ht : t.WellTyped) (sound : t.Sound) (m : Markers)
    (old new : String) : (t.renameReferences t.root m old new).1.WellTyped := by
  rw [ht.renameReferences_root sound]
  refine ht.modifyAll (fun _ => rfl) fun d => ?_
  show (d.value.map _).map _ = _
  rw [Option.map_map]
  exact congrArg (d.value.map ·) (funext (Scalar.valueType_remarked m old new))

/-- Overrides get another key. -/
theorem WellTyped.renameOverrides (ht : t.WellTyped) (path : List String) (key : String) :
    (t.alignOverrides path fun t h => t.modify h fun d => { d with key }).1.WellTyped := by
  unfold Tree.alignOverrides
  dsimp only
  rw [Tree.foldl_modify (f := fun d => { d with key }) (Or.inr fun _ => rfl)]
  refine ht.map (fun e => ?_) fun e => ?_ <;> split <;> rfl

end Tree

end LayeredConfig
