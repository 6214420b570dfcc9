import LayeredConfig.Proofs.Tree.Handles

/-!
# Properties of a node and its children

Which keys siblings bear, what stands below a scalar, how the items of an array are numbered: each is a
property of a node and its children, and a tree has it when every node has it. Data that change keep it
where the new data do (`everywhere_map_iff`). Nodes taken away and new nodes change the children of one
node, so only there is something to show (`everywhere_clear`, `everywhere_keepChildren`,
`everywhere_graftAll`).
-/

namespace LayeredConfig

namespace Forest

variable {α : Type}

theorem rootLabels_eq_nil {f : Forest α} : f.rootLabels = [] ↔ f = .nil := by
  cases f <;> simp [rootLabels]

/-- Nothing is left below the labels that lose their children. -/
theorem everywhere_adjust_nil {p : α → Bool} {Q : α → List α → Prop} {f : Forest α}
    (hf : f.Everywhere (Shallow Q)) (bottom : ∀ a es, Q a es → Q a []) :
    (f.adjust p fun _ => .nil).Everywhere (Shallow fun a es => Q a es ∧ (p a → es = [])) := by
  induction f with
  | nil => exact everywhere_nil
  | cons a cs ss ihc ihs =>
    obtain ⟨ha, hcs, hss⟩ := everywhere_cons.1 hf
    rw [adjust]
    by_cases hp : p a
    · rw [if_pos hp]
      exact everywhere_cons.2 ⟨⟨bottom a _ ha, fun _ => rfl⟩, everywhere_nil, ihs hss⟩
    · rw [if_neg hp]
      refine everywhere_cons.2 ⟨⟨?_, fun h => absurd h hp⟩, ihc hcs, ihs hss⟩
      rw [rootLabels_adjust]
      exact ha

end Forest

theorem Rose.children_map_eq_nil {α β : Type} {g : α → β} {r : Rose α} :
    (r.map g).children = .nil ↔ r.children.rootLabels = [] := by
  rw [Forest.rootLabels_eq_nil, Rose.map]
  cases r.children <;> simp [Forest.map]

namespace Tree

variable {t : Tree} {h parent : Handle} {new : NodeData} {Q : Entry → List Entry → Prop}

/-! ## Other data -/

theorem everywhere_map_iff {g : Entry → Entry} :
    ({ t with top := t.top.map g } : Tree).forest.Everywhere (Shallow Q) ↔
      t.forest.Everywhere (Shallow fun e es => Q (g e) (es.map g)) := by
  rw [forest, Rose.ofRose_map, Forest.everywhere_map]
  unfold Shallow Rose.map
  simp only [Forest.rootLabels_map]
  rfl

/-- The node `h` with new data. -/
def written (h : Handle) (new : NodeData) (e : Entry) : Entry :=
  if e.handle == h then { e with data := new } else e

theorem written_of_ne {e : Entry} (other : e.handle ≠ h) : written h new e = e :=
  if_neg (by simpa using other)

theorem written_self {e : Entry} (same : e.handle = h) : (written h new e).data = new := by
  rw [written, if_pos (by simpa using same)]

@[simp] theorem handle_written (h : Handle) (new : NodeData) (e : Entry) :
    (written h new e).handle = e.handle := by
  unfold written
  split <;> rfl

theorem top_modify (t : Tree) (h : Handle) (new : NodeData) :
    (t.modify h fun _ => new).top = t.top.map (written h new) := rfl

theorem everywhere_modify_iff :
    (t.modify h fun _ => new).forest.Everywhere (Shallow Q) ↔
      t.forest.Everywhere (Shallow fun e es => Q (written h new e) (es.map (written h new))) :=
  everywhere_map_iff

/-- An entry keyed by its position. -/
def atPosition (position : Nat) (e : Entry) : Entry :=
  { e with data := { e.data with key := itemKey position } }

theorem rootLabels_renumbered (f : Forest Entry) :
    (renumbered f).rootLabels = f.rootLabels.mapIdx atPosition := by
  unfold renumbered
  rw [Forest.rootLabels_mapRoots]
  simp only [Nat.zero_add]
  rfl

/-! ## Nodes taken away -/

/-- The node that loses its children has none. -/
theorem everywhere_clear (ht : t.forest.Everywhere (Shallow Q)) (bottom : ∀ e es, Q e es → Q e [])
    (h : Handle) :
    (t.clear h).forest.Everywhere (Shallow fun e es => Q e es ∧ (e.handle = h → es = [])) := by
  rw [Tree.clear, forest_adjust]
  refine (Forest.everywhere_adjust_nil ht bottom).mono fun r hr => ?_
  exact ⟨hr.1, fun same => hr.2 (beq_iff_eq.2 same)⟩

/-- A property that does not depend on the node's own key, and that the children kept have with their
parent. Those of an array are numbered anew. -/
theorem everywhere_keepChildren (ht : t.forest.Everywhere (Shallow Q)) {keep : Entry → Bool}
    (rekeyed : ∀ i e es, Q e es → Q (atPosition i e) es)
    (kept : ∀ r ∈ t.forest.subtrees, r.label.handle = h → Q r.label
      (if t.isArray h then (r.children.rootLabels.filter keep).mapIdx atPosition
        else r.children.rootLabels.filter keep)) :
    (t.keepChildren h keep).forest.Everywhere (Shallow Q) := by
  rw [Tree.keepChildren, forest_adjust]
  refine Forest.everywhere_adjust ht fun r hr same => ?_
  have here := kept r hr (beq_iff_eq.1 same)
  have below := (ht.of_mem_subtrees hr).2.filterRoots keep
  dsimp only
  split
  · rename_i array
    rw [if_pos array] at here
    rw [rootLabels_renumbered, Forest.rootLabels_filterRoots]
    exact ⟨here, below.mapRoots rekeyed 0⟩
  · rename_i other
    rw [if_neg other] at here
    rw [Forest.rootLabels_filterRoots]
    exact ⟨here, below⟩

/-! ## New nodes -/

theorem everywhere_graftAll (ht : t.forest.Everywhere (Shallow Q)) {drafts : Forest NodeData}
    (added : (drafts.number t.next).1.Everywhere (Shallow Q))
    (joined : ∀ r ∈ t.forest.subtrees, r.label.handle = parent →
      Q r.label (r.children.rootLabels ++ (drafts.number t.next).1.rootLabels)) :
    (t.graftAll parent drafts).1.forest.Everywhere (Shallow Q) := by
  unfold Tree.graftAll
  split
  · show (t.adjust parent (· ++ (drafts.number t.next).1)).forest.Everywhere _
    rw [forest_adjust]
    refine Forest.everywhere_adjust ht fun r hr same => ?_
    rw [Forest.rootLabels_append]
    exact ⟨joined r hr (beq_iff_eq.1 same),
      Forest.everywhere_append.2 ⟨(ht.of_mem_subtrees hr).2, added⟩⟩
  · exact ht

end Tree

end LayeredConfig
