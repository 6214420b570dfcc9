import Mathlib.Data.List.Chain
import LayeredConfig.Proofs.Tree.Traversal

/-!
# Alignment paths lead back

The alignment path of a node is read off on the way up and followed on the way down. Both are said of
the same way from the root (`IsWay`): the loop up puts together what each node is called by the one
above it (`alignedAbove_of_isWay`), and from the root these names lead back along the way, as long as
it takes the first item of every array and no two children of a node bear one key
(`findAligned?_of_chain`). The two walks over the links are those of the tree that the arena shows
(`Represents.alignedPath_eq`, `Represents.findAligned?_eq`), by which overrides are found.

Main statement: `alignedPath_leads_back`, for the arena after every run.
-/

namespace LayeredConfig

/-- Where the images of some elements are distinct, an element is the first with its image. -/
theorem find?_of_nodup_map {α β : Type} [BEq β] [LawfulBEq β] {f : α → β} {l : List α}
    (distinct : (l.map f).Nodup) {x : α} (hx : x ∈ l) : l.find? (fun y => f y == f x) = some x := by
  induction l with
  | nil => cases hx
  | cons y l ih =>
    rw [List.map_cons, List.nodup_cons] at distinct
    by_cases same : f y = f x
    · rcases List.mem_cons.1 hx with rfl | later
      · simp
      · exact absurd (same ▸ List.mem_map_of_mem later) distinct.1
    · have later : x ∈ l := (List.mem_cons.1 hx).resolve_left fun here => same (here ▸ rfl)
      simp [same, ih distinct.2 later]

namespace Arena

variable {a : Arena} {t : Tree} {h p c : Handle} {parent : Option Handle}

/-- What a child is called by its parent in an alignment path. -/
def alignedKey (a : Arena) (p c : Handle) : String :=
  if a.isArray p then firstItemKey else (a.key? c).getD ""

/-- What the nodes of a way are called, each by the one before it. -/
def alignedKeys (a : Arena) (way : List Handle) : List String := List.zipWith a.alignedKey way way.tail

theorem alignedKeys_concat (a : Arena) (front : List Handle) (p c : Handle) :
    a.alignedKeys (front ++ [p] ++ [c]) = a.alignedKeys (front ++ [p]) ++ [a.alignedKey p c] := by
  rw [alignedKeys, List.append_assoc]
  exact Tree.zipWith_tail_append a.alignedKey front [c] p

/-- The children of a node bear distinct keys. -/
def UniqueKeys (a : Arena) : Prop := ∀ n ∈ a.slots.filterMap id, (n.children.map a.key?).Nodup

instance (a : Arena) : Decidable a.UniqueKeys :=
  inferInstanceAs (Decidable (∀ n ∈ a.slots.filterMap id, (n.children.map a.key?).Nodup))

theorem UniqueKeys.children (unique : a.UniqueKeys) (h : Handle) : ((a.children h).map a.key?).Nodup := by
  unfold Arena.children
  cases node : a.node? h with
  | none => simp
  | some n =>
    refine unique n (List.mem_filterMap.2 ⟨some n, ?_, rfl⟩)
    rw [node?, Option.join_eq_some_iff] at node
    exact List.mem_of_getElem? node

/-- A child of every array on the way is its first item. -/
def TakesFirst (a : Arena) (way : List Handle) : Prop :=
  way.IsChain fun p c => a.isArray p → (a.children p).head? = some c

instance (a : Arena) (way : List Handle) : Decidable (a.TakesFirst way) :=
  inferInstanceAs (Decidable (way.IsChain fun p c => a.isArray p → (a.children p).head? = some c))

instance (a : Arena) (way : List Handle) : Decidable (a.IsWay way) :=
  inferInstanceAs (Decidable (way.head? = some a.root ∧ way.IsChain fun p c => c ∈ a.children p))

/-- The way from the root to a node takes the first item of every array. -/
def AmongFirst (a : Arena) (h : Handle) : Prop :=
  ∃ way, a.IsWay way ∧ way.getLast? = some h ∧ a.TakesFirst way

/-! ## Down -/

section Down

variable (ha : a.Represents t) (unique : a.UniqueKeys)

include ha unique

/-- A child is found by what its parent calls it. -/
theorem alignedChild?_alignedKey (hc : c ∈ a.children p)
    (first : a.isArray p → (a.children p).head? = some c) : a.alignedChild? p (a.alignedKey p c) = some c := by
  unfold alignedChild? alignedKey
  by_cases array : a.isArray p
  · rw [if_pos array, if_pos ⟨rfl, array⟩, first array]
  · obtain ⟨n, node⟩ := Option.isSome_iff_exists.1 (ha.child hc).1
    have key : a.key? c = some n.data.key := by rw [key?, node, Option.map_some]
    have found := find?_of_nodup_map (unique.children p) hc
    rw [key] at found
    rw [if_neg array, if_neg fun both => array both.2, key, Option.getD_some]
    exact found

/-- From the first node of a way the names lead to its last. -/
theorem findAligned?_of_chain {way : List Handle} (chain : (p :: way).IsChain fun p c => c ∈ a.children p)
    (first : a.TakesFirst (p :: way)) : a.findAligned? p (a.alignedKeys (p :: way)) = (p :: way).getLast? := by
  induction way generalizing p with
  | nil => rfl
  | cons c way ih =>
    obtain ⟨child, below⟩ := List.isChain_cons_cons.1 chain
    obtain ⟨here, later⟩ := List.isChain_cons_cons.1 first
    rw [alignedKeys, List.tail_cons, List.zipWith_cons_cons, findAligned?,
      alignedChild?_alignedKey ha unique child here, Option.bind_some, List.getLast?_cons_cons]
    exact ih below later

end Down

/-! ## Up -/

/-- The loop up from the last node of a way puts its names together. The induction shortens the way at
its end, where the loop starts. -/
theorem alignedAbove_of_isWay (ha : a.Represents t) {way : List Handle} (hw : a.IsWay (way ++ [h])) (steps : Nat)
    (path : List String) :
    a.alignedAbove (way.length + (steps + 1)) path h = some (a.alignedKeys (way ++ [h]) ++ path) := by
  induction way using List.reverseRecOn generalizing h path with
  | nil =>
    obtain rfl : h = a.root := Option.some.inj hw.1
    rw [List.length_nil, Nat.zero_add, alignedAbove, ha.wellFormed.root.2]
    rfl
  | append_singleton front p ih =>
    obtain ⟨start, chain⟩ := hw
    have shorter : a.IsWay (front ++ [p]) := by
      refine ⟨?_, (List.isChain_append.1 chain).1⟩
      rw [List.head?_append_of_ne_nil _ (by simp)] at start
      exact start
    have child : h ∈ a.children p := by
      have last := (List.isChain_append.1 chain).2.2
      simpa using last
    obtain ⟨live, above⟩ := ha.child child
    obtain ⟨n, node⟩ := Option.isSome_iff_exists.1 live
    have key : a.key? h = some n.data.key := by rw [key?, node, Option.map_some]
    have step (rest : Nat) : a.alignedAbove (rest + 1) path h = a.alignedAbove rest (a.alignedKey p h :: path) p := by
      rw [alignedAbove, above, alignedKey, key]
      dsimp only
      split <;> rfl
    rw [List.length_append, List.length_singleton, Nat.add_right_comm, step, ih shorter, alignedKeys_concat]
    simp

/-! ## The walks of the tree -/

/-- The handles on a way down a forest are children, one of the other. -/
theorem Holds.isChain_of_mem_trails {f : Forest Entry} (hf : a.Holds parent f) {way : List Entry}
    (inside : way ∈ f.trails) : (way.map (·.handle)).IsChain (fun p c => c ∈ a.children p) ∧
      ∃ e ∈ f.rootLabels, way.head? = some e := by
  induction f generalizing parent way with
  | nil => cases inside
  | cons e cs ss ihc ihs =>
    obtain ⟨he, hcs, hss⟩ := hf
    rw [Forest.trails, List.mem_cons, List.mem_append, List.mem_map] at inside
    rcases inside with rfl | ⟨below, inside, rfl⟩ | inside
    · exact ⟨List.IsChain.singleton _, e, List.mem_cons_self, rfl⟩
    · obtain ⟨chain, c, hc, head⟩ := ihc hcs inside
      refine ⟨?_, e, List.mem_cons_self, rfl⟩
      obtain ⟨rest, rfl⟩ := List.head?_eq_some_iff.1 head
      refine List.isChain_cons_cons.2 ⟨?_, chain⟩
      rw [children_of_node? he]
      exact List.mem_map_of_mem hc
    · obtain ⟨chain, c, hc, head⟩ := ihs hss inside
      exact ⟨chain, c, List.mem_cons_of_mem _ hc, head⟩

namespace Represents

variable (ha : a.Represents t)

include ha

theorem isWay_trail (live : a.contains h) :
    a.IsWay ((t.trail h).map (·.handle)) ∧ (t.trail h).getLast?.map (·.handle) = some h ∧
      t.trail h ∈ t.forest.trails := by
  obtain ⟨e, there, rfl⟩ := ha.exists_entry live
  obtain ⟨inside, last⟩ := ha.sound.mem_trails_iff.2 ⟨Tree.mem_entries_iff.2 there, rfl⟩
  obtain ⟨chain, top, htop, head⟩ := ha.holds.isChain_of_mem_trails inside
  refine ⟨⟨?_, chain⟩, by rw [last]; rfl, inside⟩
  rw [List.head?_map, head, ha.root, List.mem_singleton.1 htop]
  rfl

/-- What an arena calls the nodes of a way is what the tree calls their entries. -/
theorem alignedKeys_eq {way : List Entry} (inside : way ∈ t.forest.trails) :
    a.alignedKeys (way.map (·.handle)) = List.zipWith Tree.alignedKey way way.tail := by
  have known : ∀ e ∈ way, ∃ n, a.node? e.handle = some n ∧ n.data = e.data := fun e he =>
    ha.node_of_mem (Forest.mem_preorder_of_mem_trails inside he)
  have called : ∀ p ∈ way, ∀ c ∈ way, a.alignedKey p.handle c.handle = Tree.alignedKey p c := by
    intro p hp c hc
    obtain ⟨n, node, data⟩ := known p hp
    obtain ⟨m, node', data'⟩ := known c hc
    simp [Arena.alignedKey, Tree.alignedKey, isArray, key?, node, node', data, data']
  rw [alignedKeys, ← List.map_tail, List.zipWith_map]
  refine List.ext_getElem (by simp) fun i hi hi' => ?_
  rw [List.getElem_zipWith, List.getElem_zipWith]
  exact called _ (List.getElem_mem _) _ (List.mem_of_mem_tail (List.getElem_mem _))

theorem contains_of_isWay {way : List Handle} (hw : a.IsWay way) (last : way.getLast? = some h) : a.contains h := by
  obtain ⟨start, chain⟩ := hw
  obtain ⟨rest, rfl⟩ := List.head?_eq_some_iff.1 start
  rw [List.getLast?_eq_some_getLast (List.cons_ne_nil _ _)] at last
  rw [ha.contains_iff_reached]
  exact List.relationReflTransGen_of_exists_isChain_cons rest chain (Option.some.inj last)

/-- The loop up gives the names of the nodes on a way. -/
theorem alignedPath_of_isWay {way : List Handle} (hw : a.IsWay way) (last : way.getLast? = some h) :
    a.alignedPath h = some (a.alignedKeys way) := by
  obtain ⟨front, rfl⟩ := List.getLast?_eq_some_iff.1 last
  have length := ha.length_le_of_isWay hw
  have fits := Nat.le_trans length (t.forest.depth_le_size)
  obtain ⟨more, steps⟩ := ha.exists_steps fits
  rw [alignedPath, steps, List.length_append, List.length_singleton, Nat.add_assoc, Nat.add_comm 1,
    alignedAbove_of_isWay ha hw, List.append_nil]

theorem alignedPath_eq (live : a.contains h) : a.alignedPath h = some (t.alignedPath h) := by
  obtain ⟨way, last, inside⟩ := ha.isWay_trail live
  rw [ha.alignedPath_of_isWay way (by rw [List.getLast?_map]; exact last), ha.alignedKeys_eq inside]
  rfl

theorem key?_eq (h : Handle) : a.key? h = t.key? h := by
  unfold Arena.key? Tree.key? Tree.data?
  cases hr : t.find? h with
  | none => rw [ha.node?_eq_none hr]; rfl
  | some r =>
    obtain ⟨p, node⟩ := ha.node hr
    rw [node]
    rfl

theorem alignedChild?_eq {r : Rose Entry} (hr : t.find? h = some r) (key : String) :
    a.alignedChild? h key = (Tree.stepAligned r key).map (·.label.handle) := by
  have children : a.children h = r.children.roots.map (·.label.handle) := by
    rw [ha.children_eq, Tree.children, Tree.below_of_find? hr, Forest.rootLabels_eq_map_roots, List.map_map]
    rfl
  have array : a.isArray h ↔ r.label.data.type = .array := by
    rw [ha.isArray_eq, Tree.isArray_of_find? hr, beq_iff_eq]
  have keys : ∀ s ∈ r.children.roots, a.key? s.label.handle = some s.label.data.key := by
    intro s hs
    rw [ha.key?_eq, Tree.key?, ha.sound.data?_of_child (Tree.find?_mem hr) (Forest.label_mem_rootLabels hs)]
    rfl
  unfold alignedChild? Tree.stepAligned
  simp only [array]
  split
  · rw [children, List.head?_map]
  · rw [child?, children, List.find?_map, Tree.stepKey, Forest.findRoot?_eq_find?]
    refine congrArg _ (List.find?_congr fun s hs => ?_)
    rw [Function.comp_apply, keys s hs]
    rfl

/-- From a node of the tree both walks take the same steps. -/
theorem findAligned?_of_find? {r : Rose Entry} (hr : t.find? h = some r) (path : List String) :
    a.findAligned? h path = (Tree.follow Tree.stepAligned r path).map (·.label.handle) := by
  induction path generalizing h r with
  | nil => rw [findAligned?, Tree.follow, Option.map_some, Tree.find?_handle hr]
  | cons key path ih =>
    rw [findAligned?, ha.alignedChild?_eq hr, Tree.follow]
    cases hs : Tree.stepAligned r key with
    | none => rfl
    | some s =>
      rw [Option.map_some, Option.bind_some, Option.bind_some]
      exact ih (ha.sound.find?_of_mem (Tree.mem_subtrees_of_step (Tree.find?_mem hr) hs))

theorem findAligned?_eq (h : Handle) (path : List String) : a.findAligned? h path = t.findAligned? h path := by
  unfold Tree.findAligned? Tree.walk?
  cases path with
  | nil => rfl
  | cons key path =>
    rw [if_neg (by simp)]
    cases hr : t.find? h with
    | some r => exact ha.findAligned?_of_find? hr (key :: path)
    | none =>
      -- A handle without a node has no children to go down to.
      have none : a.children h = [] := by
        rw [children, ha.node?_eq_none hr]
        rfl
      simp [findAligned?, alignedChild?, child?, none]

end Represents

/-! ## There and back -/

/-- **Alignment paths lead back.** After every run of changes of a new arena: where no two children of
a node bear one key, the alignment path of a node whose way takes the first item of every array leads
from the root to that node, and no two such nodes have the same path. -/
theorem alignedPath_leads_back (kind : TreeKind) (data : NodeData) (changes : List TreeChange)
    (unique : ((withRoot kind data).run changes).UniqueKeys) :
    let a := (withRoot kind data).run changes
    (∀ h, a.AmongFirst h → ∃ path, a.alignedPath h = some path ∧ a.findAligned? a.root path = some h ∧
      a.tree.alignedPath h = path ∧ a.tree.findAligned? a.tree.root path = some h) ∧
    ∀ h h', a.AmongFirst h → a.AmongFirst h' → a.alignedPath h = a.alignedPath h' → h = h' := by
  intro a
  have ha := (represents_withRoot kind data).run changes
  have back : ∀ h, a.AmongFirst h →
      ∃ path, a.alignedPath h = some path ∧ a.findAligned? a.root path = some h := by
    rintro h ⟨way, hw, last, first⟩
    refine ⟨_, ha.alignedPath_of_isWay hw last, ?_⟩
    obtain ⟨rest, rfl⟩ := List.head?_eq_some_iff.1 hw.1
    rw [← last]
    exact findAligned?_of_chain ha unique hw.2 first
  refine ⟨fun h hh => ?_, fun h h' hh hh' same => ?_⟩
  · obtain ⟨path, up, down⟩ := back h hh
    obtain ⟨way, hw, last, -⟩ := hh
    have live : a.contains h := ha.contains_of_isWay hw last
    refine ⟨path, up, down, ?_, ?_⟩
    · rw [ha.tree_eq]
      exact Option.some.inj ((ha.alignedPath_eq live).symm.trans up)
    · rw [ha.tree_eq, ← ha.findAligned?_eq, ← ha.root]
      exact down
  · obtain ⟨path, up, down⟩ := back h hh
    obtain ⟨path', up', down'⟩ := back h' hh'
    obtain rfl : path = path' := Option.some.inj (up.symm.trans (same.trans up'))
    exact Option.some.inj (down.symm.trans down')

/-- A scalar becomes an array of arrays, and below these an object has keys that look like items. -/
def itemLikeKeys : List TreeChange :=
  [.add 0 { key := "servers", type := .string }, .remove 1,
    .graft 0 ⟨{ key := "servers", type := .array },
      .cons { key := "[0]", type := .array }
        (.cons { key := "[0]" } (.cons { key := "[1]", type := .string } .nil
          (.cons { key := "[0]", type := .string } .nil .nil)) .nil)
        (.cons { key := "[1]", type := .array } (.cons { key := "[0]", type := .string } .nil .nil) .nil)⟩]

theorem alignedPath_itemLikeKeys :
    let a := (withRoot .default { key := "root" }).run itemLikeKeys
    a.UniqueKeys ∧ a.AmongFirst 6 ∧ a.alignedPath 6 = some ["servers", "[0]", "[0]", "[0]"] ∧
      a.findAligned? a.root ["servers", "[0]", "[0]", "[0]"] = some 6 := by
  intro a
  have unique : a.UniqueKeys := by decide +kernel
  have first : a.AmongFirst 6 := ⟨[0, 2, 3, 4, 6], by decide +kernel, rfl, by decide +kernel⟩
  have path : a.alignedPath 6 = some ["servers", "[0]", "[0]", "[0]"] := by decide +kernel
  obtain ⟨found, up, down, -⟩ := (alignedPath_leads_back .default { key := "root" } itemLikeKeys unique).1 6 first
  obtain rfl := Option.some.inj (path.symm.trans up)
  exact ⟨unique, first, path, down⟩

end Arena

end LayeredConfig
