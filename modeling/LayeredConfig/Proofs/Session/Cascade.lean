import LayeredConfig.Proofs.Session.Aligned
import LayeredConfig.Proofs.Tree.TakenOut

/-!
# What a deletion takes away

A deletion takes out the subtree of the node and, where a default node is deleted that is no item of
an array, what its alignment path leads to in each environment. The path is taken before the node goes
and all environments are searched before the first of them changes. Aliases of the node's anchor go
from the lists of both trees, and nothing else changes.

Main statement: `Session.doDelete_exact`.
-/

namespace LayeredConfig

/-- Data whose aliases do not name an anchor. -/
def NodeData.unaliased (anchor : Option String) (d : NodeData) : NodeData :=
  { d with aliases := d.aliases.filter (anchor ≠ some ·) }

namespace Configuration

variable {c : Configuration} {n : NodeRef} {t : Tree} {data : NodeData}

/-- The nodes that the alignment path of a default node leads to, environment by environment. -/
def found (c : Configuration) (d : Handle) : List Handle :=
  (c.environments.children c.environments.root).filterMap
    (c.environments.findAligned? · (c.default.alignedPath d))

/-- The tops of the subtrees of a tree that go when a node is deleted. -/
def cascade (c : Configuration) (n : NodeRef) (kind : TreeKind) : List Handle :=
  if kind = n.tree then [n.handle]
  else if kind = .environments ∧ n.tree = .default ∧ !c.default.isItem n.handle then
    c.found n.handle
  else []

theorem cascade_own (c : Configuration) (n : NodeRef) : c.cascade n n.tree = [n.handle] := if_pos rfl

theorem cascade_of_default (c : Configuration) (d : Handle) :
    c.cascade ⟨.default, d⟩ .environments = if !c.default.isItem d then c.found d else [] := by
  simp [cascade]

/-- Below the root of the default tree the overrides of a node are what its path leads to. -/
theorem overrides_eq_found (hc : c.Sound) {d p : Handle} (hp : c.default.parent? d = some p) :
    c.environments.overrides (c.default.alignedPath d) = c.found d := by
  obtain ⟨r, hr, e, he, rfl⟩ := Tree.mem_children_iff.1 (hc.1.parent?_eq_some_iff.1 hp)
  obtain ⟨path, hpath⟩ := hc.1.alignedPath_concat (Tree.find?_mem hr) he
  unfold Tree.overrides found
  rw [hpath, if_neg (by simp)]

/-- The root of the environments overrides nothing. -/
theorem root_not_mem_found (hc : c.Sound) {d p : Handle} (hp : c.default.parent? d = some p) :
    c.environments.root ∉ c.found d := by
  rw [← overrides_eq_found hc hp]
  exact hc.2.root_not_mem_overrides _

theorem following_eq_unaliased (anchor : Option String) :
    NodeData.following anchor none = NodeData.unaliased anchor := by
  funext d
  obtain ⟨key, type, value, anchor', aliases, comment⟩ := d
  unfold NodeData.following NodeData.unaliased
  cases anchor with
  | none => simp [followAnchor]
  | some a =>
    have same : ∀ b : String, (b ≠ a) ↔ (some a ≠ some b) := fun b => by simp [eq_comm]
    simp only [followAnchor, same]

/-- The overrides that go with a default node, the aliases of its anchor being gone already. -/
theorem alignDeletion_unaliased (hc : c.Sound) {d p : Handle} (hp : c.default.parent? d = some p)
    (anchor : Option String) :
    ((c.environments.modifyAll (.unaliased anchor)).removeOverrides (c.default.alignedPath d)).1 =
      (c.environments.takeOut (c.found d)).modifyAll (.unaliased anchor) := by
  have same : c.environments.SameWays (c.environments.modifyAll (.unaliased anchor)) :=
    Tree.sameWays_modifyAll (f := .unaliased anchor) (fun _ => rfl) (fun _ => rfl) _
  have sound : (c.environments.modifyAll (.unaliased anchor)).Sound :=
    hc.2.map (g := fun e => { e with data := e.data.unaliased anchor }) fun _ => rfl
  rw [sound.removeOverrides_eq_takeOut, same.overrides, overrides_eq_found hc hp]
  exact Tree.takeOut_modifyAll (f := .unaliased anchor) (fun _ => rfl) (fun _ _ => rfl) _ _

/-- The trees after a deletion. -/
theorem tree?_deleted (hc : c.Sound) (ht : c.tree? n.tree = some t) {above : Handle}
    (hp : t.parent? n.handle = some above) {kind : TreeKind} {u : Tree}
    (hu : c.tree? kind = some u) :
    (c.deleted n t data above).tree? kind =
      some ((u.takeOut (c.cascade n kind)).modifyAll (.unaliased data.anchor)) := by
  have below : n.handle ≠ t.root := ne_root_of_parent hp
  have item : t.isItem n.handle = t.isArray above := by rw [Tree.isItem, hp]
  rw [deleted_eq, alignAnchor_eq, following_eq_unaliased]
  obtain ⟨kind', h⟩ := n
  cases kind' with
  | detached => cases ht
  | environments =>
    cases ht
    cases kind with
    | detached => cases hu
    | environments =>
      cases hu
      rw [cascade_own, ← hc.2.remove_eq_takeOut below]
      rfl
    | default =>
      cases hu
      rw [show c.cascade ⟨.environments, h⟩ .default = [] from rfl, Tree.takeOut_nil]
      rfl
  | default =>
    cases ht
    cases kind with
    | detached => cases hu
    | default =>
      cases hu
      rw [cascade_own, ← hc.1.remove_eq_takeOut below]
      dsimp only
      split <;> rfl
    | environments =>
      cases hu
      rw [cascade_of_default, item]
      simp only [true_and]
      by_cases aligned : !c.default.isArray above
      · rw [if_pos aligned, if_pos aligned, ← alignDeletion_unaliased hc hp]
        rfl
      · rw [if_neg aligned, if_neg aligned, Tree.takeOut_nil]
        rfl

/-- No cascade takes out a root. -/
theorem root_not_mem_cascade (hc : c.Sound) (ht : c.tree? n.tree = some t)
    (there : t.contains n.handle) (below : n.handle ≠ t.root) {kind : TreeKind} {u : Tree}
    (hu : c.tree? kind = some u) : u.root ∉ c.cascade n kind := by
  unfold cascade
  split
  · rename_i own
    subst own
    cases ht.symm.trans hu
    simpa using below.symm
  · split
    · rename_i aligned
      obtain ⟨rfl, default, -⟩ := aligned
      rw [default] at ht
      cases ht
      cases hu
      obtain ⟨p, hp⟩ := hc.1.exists_parent (Tree.contains_iff.1 there) below
      exact root_not_mem_found hc hp
    · exact List.not_mem_nil

end Configuration

namespace Session

variable {s : Session} {n : NodeRef} {t : Tree} {data : NodeData}

/-- **A deletion does its cascade and nothing else.** Deleting any node but a root succeeds. Each tree
is then the former one without the subtrees of the cascade and without the aliases of the node's
anchor: the nodes left are those that are not below any of them, each has the parent it had and its
children in the order they had, and its data are as they were but for these aliases and for the key of
an item whose array lost items. -/
theorem doDelete_exact (hs : s.config.Sound) (ht : s.config.tree? n.tree = some t)
    (hd : t.data? n.handle = some data) (below : n.handle ≠ t.root) :
    ∃ c', s.doDelete n = (.ok (), { s with config := c' }) ∧
      ∀ kind u, s.config.tree? kind = some u →
        let left := (u.takeOut (s.config.cascade n kind)).modifyAll (.unaliased data.anchor)
        c'.tree? kind = some left ∧
          u.TakenOut (s.config.cascade n kind) (.unaliased data.anchor) left := by
  have there := Tree.contains_of_data? hd
  obtain ⟨above, hp⟩ := (hs.tree ht).exists_parent (Tree.contains_iff.1 there) below
  refine ⟨s.config.deleted n t data above, ?_, fun kind u hu => ⟨?_, ?_⟩⟩
  · unfold doDelete
    rw [Configuration.delete_of_parent ht hd hp]
  · exact Configuration.tree?_deleted hs ht hp hu
  · have outside := Configuration.root_not_mem_cascade hs ht there below hu
    exact ((hs.tree hu).takenOut outside).modifyAll (.unaliased data.anchor)

/-- An object with an anchor, which an environment overrides and a node of each tree repeats. -/
def anchoredObject : Session :=
  overriding
    [⟨{ key := "base", anchor := some "b" }, .ofRoots [Draft.number "a" 1]⟩,
      ⟨{ key := "copy", aliases := ["b"] }, .nil⟩]
    [.object "base" [.number "a" 2], ⟨{ key := "own", aliases := ["b", "c"] }, .nil⟩]

theorem doDelete_exact_anchoredObject :
    anchoredObject.config.cascade ⟨.default, 1⟩ .environments = [2] ∧
      ∃ c', anchoredObject.doDelete ⟨.default, 1⟩ =
          (.ok (), { anchoredObject with config := c' }) ∧
        ∀ kind u, anchoredObject.config.tree? kind = some u →
          let left := (u.takeOut (anchoredObject.config.cascade ⟨.default, 1⟩ kind)).modifyAll
            (.unaliased (some "b"))
          c'.tree? kind = some left ∧
            u.TakenOut (anchoredObject.config.cascade ⟨.default, 1⟩ kind) (.unaliased (some "b")) left :=
  ⟨by decide +kernel,
    doDelete_exact (s := anchoredObject) (n := ⟨.default, 1⟩) (by decide +kernel) rfl rfl (by decide)⟩

end Session

end LayeredConfig
