import LayeredConfig.Proofs.Compile.Expansion
import LayeredConfig.Proofs.Compile.Lineage
import LayeredConfig.Proofs.Forest.Relabelled
import LayeredConfig.Proofs.Tree.Handles

/-!
# What an environment contributes

In a sound tree an environment is known by its handle as what it is, so all that is read of it can
be said of its document: the layer (`layer_of_root`), the environment it inherits from
(`inheritsOf_of_root`), the name it is found under (`find?_named`) and the anchors in it
(`Tree.anchorContents_eq`).
-/

namespace LayeredConfig

/-- What an environment inherits from, by its document. A blank name is none. -/
def Draft.inherits (d : Draft) : Inherits :=
  match d.children.findRoot? (·.key == inheritsKey) with
  | none => .nothing
  | some r =>
    match r.label.value with
    | none => .nothing
    | some (.string text) =>
      let name := Text.trim text
      if name.isEmpty then .nothing else .environment name
    | some _ => .invalid

/-- The anchors of a document, each with the content it has there. -/
def Draft.anchorContents (d : Draft) : List (String × AnchorSource) :=
  (d :: d.children.subtrees).filterMap fun r => r.label.anchor.map (·, .content r.layered)

theorem Draft.mem_anchorContents {d : Draft} {name : String} {source : AnchorSource} :
    (name, source) ∈ d.anchorContents ↔ ∃ n, (n = d ∨ n ∈ d.children.subtrees) ∧
      n.label.anchor = some name ∧ source = .content n.layered := by
  simp only [anchorContents, List.mem_filterMap, Option.map_eq_some_iff, Prod.mk.injEq,
    List.mem_cons]
  constructor
  · rintro ⟨n, hn, a, ha, rfl, rfl⟩
    exact ⟨n, hn, ha, rfl⟩
  · rintro ⟨n, hn, ha, rfl⟩
    exact ⟨n, hn, name, ha, rfl, rfl⟩

/-- Where no node declares an anchor, there is no content of one. -/
theorem Draft.anchorContents_eq_nil {r : Rose Entry} (h : ∀ e ∈ r.preorder, e.data.anchor = none) :
    Draft.anchorContents (r.map (·.data)) = [] := by
  have none : (r.map (·.data)).Everywhere fun n => n.label.anchor = none :=
    (Rose.everywhere_map_label (p := fun d : NodeData => d.anchor = none)).2 h
  refine List.filterMap_eq_nil_iff.2 fun n hn => ?_
  rcases List.mem_cons.1 hn with rfl | hn
  · rw [none.1, Option.map_none]
  · rw [none.2 n hn, Option.map_none]

namespace Tree

/-- The nodes directly below the root. -/
def branches (t : Tree) : List (Rose Entry) := t.top.children.roots

theorem Sound.find?_branch {t : Tree} (ht : t.Sound) {r : Rose Entry} (hr : r ∈ t.branches) :
    t.find? r.label.handle = some r :=
  ht.find?_of_mem (List.mem_cons_of_mem _ (List.mem_append_left _
    (Forest.mem_subtrees_of_mem_roots hr (Or.inl rfl))))

/-- The anchor of the root, with the whole tree for its content. -/
def rootContents (t : Tree) : List (String × AnchorSource) :=
  (t.top.label.data.anchor.map (·, AnchorSource.content (t.top.map (·.data)).layered)).toList

theorem lookup_rootContents {t : Tree} {name : String}
    (h : t.top.label.data.anchor ≠ some name) : t.rootContents.lookup name = none := by
  unfold rootContents
  cases anchor : t.top.label.data.anchor with
  | none => rfl
  | some a =>
    have other : (name == a) = false := by
      rw [beq_eq_false_iff_ne]
      rintro rfl
      exact h anchor
    rw [Option.map_some, Option.toList_some, List.lookup_cons, other]
    rfl

theorem anchor_of_mem_rootContents {t : Tree} {name : String} {source : AnchorSource}
    (h : (name, source) ∈ t.rootContents) : t.top.label.data.anchor = some name := by
  obtain ⟨a, ha, same⟩ := Option.map_eq_some_iff.1 (Option.mem_toList.1 h)
  cases same
  exact ha

theorem map_fst_rootContents (t : Tree) :
    t.rootContents.map Prod.fst = t.top.label.data.anchor.toList := by
  unfold rootContents
  cases t.top.label.data.anchor <;> rfl

theorem anchorContents_congr {t t' : Tree} (h : t'.top.map (·.data) = t.top.map (·.data)) :
    t'.anchorContents = t.anchorContents := by
  unfold anchorContents forest
  rw [← Rose.ofRose_map, ← Rose.ofRose_map, h]

/-- The anchors of a tree are that of its root and those of its branches. -/
theorem anchorContents_eq (t : Tree) :
    t.anchorContents =
      t.rootContents ++ t.branches.flatMap fun r => Draft.anchorContents (r.map (·.data)) := by
  have flat : ∀ f : Forest NodeData,
      f.subtrees.filterMap (fun r => r.label.anchor.map (·, AnchorSource.content r.layered)) =
        f.roots.flatMap Draft.anchorContents := by
    intro f
    induction f with
    | nil => rfl
    | cons d cs ss _ ih =>
      rw [Forest.subtrees, ← List.cons_append, List.filterMap_append, ih, Forest.roots,
        List.flatMap_cons]
      rfl
  unfold anchorContents branches rootContents
  rw [forest, Forest.ofRose, Forest.map, flat, Forest.roots, Forest.map, Forest.roots,
    List.flatMap_cons, List.flatMap_nil, List.append_nil, Draft.anchorContents,
    List.filterMap_cons, flat, Forest.roots_map, List.flatMap_map]
  cases t.top.label.data.anchor <;> simp [Rose.map]

end Tree

namespace Configuration

variable {c : Configuration} {r : Rose Entry}

section

variable (sound : c.environments.Sound) (hr : r ∈ c.environments.branches)

include sound hr

theorem extract_of_root : c.environments.extract r.label.handle = some (r.map (·.data)) := by
  rw [Tree.extract, sound.find?_branch hr, Option.map_some]

theorem layer_of_root :
    c.layer r.label.handle = (r.map (·.data)).layered.without inheritsKey := by
  rw [layer, extract_of_root sound hr]

theorem inheritsOf_of_root : c.inheritsOf r.label.handle = Draft.inherits (r.map (·.data)) := by
  have below := Tree.below_of_find? (sound.find?_branch hr)
  have found := Forest.findRoot?_map (g := Entry.data) (p := (·.data.key == inheritsKey))
    (q := (·.key == inheritsKey)) (fun _ => rfl) r.children
  unfold inheritsOf Draft.inherits Tree.child?
  rw [below, Rose.map, found]
  cases child : r.children.findRoot? (·.data.key == inheritsKey) with
  | none => rfl
  | some x =>
    have inside := Forest.label_mem_rootLabels (Forest.findRoot?_mem child)
    have known := sound.data?_of_child (Tree.find?_mem (sound.find?_branch hr)) inside
    rw [Option.map_some, Option.bind_some, known, Option.map_some]
    rfl

end

/-- The environment that is found under a name. -/
theorem environment?_eq (c : Configuration) (name : String) :
    c.environment? name =
      (c.environments.branches.find? (·.label.data.key == name)).map (·.label.handle) := by
  have root : c.environments.below c.environments.root = c.environments.top.children :=
    Tree.below_of_find? (by simp [Tree.find?, Tree.forest, Forest.ofRose, Forest.find?, Tree.root])
  rw [environment?, Tree.child?, root, Forest.findRoot?_eq_find?]
  rfl

theorem named_eq (c : Configuration) :
    c.named = c.environments.branches.map fun r => (r.label.data.key, r.label.handle) := by
  rw [named, Forest.rootLabels_eq_map_roots, List.map_map]
  rfl

theorem find?_named (c : Configuration) (name : String) :
    c.named.find? (·.1 == name) =
      (c.environments.branches.find? (·.label.data.key == name)).map fun r =>
        (r.label.data.key, r.label.handle) := by
  rw [named_eq, List.find?_map]
  rfl

end Configuration

end LayeredConfig
