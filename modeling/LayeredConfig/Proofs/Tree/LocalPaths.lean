import LayeredConfig.Proofs.Tree.SameWays
import Mathlib.Data.List.Induction

/-!
# Paths inside environments

The path of a node inside its environment (`localPath`) is read on the way to it, so a first part of
it is the path of a node above (`Sound.exists_of_isPrefix`). Nodes that are left when others are taken
out keep their paths (`Sound.left_of_prune`). Where some nodes get a new key, a path changes in the
key of the one that it passes (`alignedPath_of_kept`, `Sound.alignedPath_renamed`).
-/

namespace LayeredConfig.Tree

variable {t t' : Tree} {h x : Handle} {e p : Entry} {above below : List Entry}

/-- The alignment path of a node of the environments inside its environment. -/
def localPath (t : Tree) (h : Handle) : List String := (t.alignedPath h).tail

theorem length_alignedPath (t : Tree) (h : Handle) : (t.alignedPath h).length = t.level h := by
  unfold alignedPath level
  dsimp only
  rw [List.length_zipWith, List.length_tail]
  omega

theorem length_localPath (t : Tree) (h : Handle) : (t.localPath h).length = t.level h - 1 := by
  rw [localPath, List.length_tail, length_alignedPath]

/-! ## Ways and their first parts -/

/-- An entry on the way to a node has the way up to it. -/
theorem Sound.trail_of_append (ht : t.Sound) (there : x ∈ t.entries.map (·.handle))
    (hw : t.trail x = above ++ e :: below) : e ∈ t.entries ∧ t.trail e.handle = above ++ [e] := by
  obtain ⟨ex, hx, rfl⟩ := List.mem_map.1 there
  refine ht.mem_trails_iff.1 ⟨?_, List.getLast?_concat⟩
  refine Forest.mem_trails_of_isPrefix (ht.mem_trails_iff.2 ⟨hx, rfl⟩).1 ?_ (by simp)
  exact ⟨below, by rw [hw]; simp⟩

/-- The path to a node goes on from the path of an entry on the way. -/
theorem Sound.alignedPath_of_append (ht : t.Sound) (there : x ∈ t.entries.map (·.handle))
    (hw : t.trail x = above ++ e :: below) :
    t.alignedPath x = t.alignedPath e.handle ++ List.zipWith alignedKey (e :: below) below := by
  unfold alignedPath
  dsimp only
  rw [hw, (ht.trail_of_append there hw).2, zipWith_tail_append]

theorem Sound.level_of_append (ht : t.Sound) (there : x ∈ t.entries.map (·.handle))
    (hw : t.trail x = above ++ e :: below) : t.level e.handle = above.length := by
  rw [level, (ht.trail_of_append there hw).2, List.length_append, List.length_singleton,
    Nat.add_sub_cancel]

/-- The entries on a way lie on levels of their own. -/
theorem Sound.level_ne_of_append (ht : t.Sound) (there : x ∈ t.entries.map (·.handle))
    (hw : t.trail x = above ++ e :: below) {a : Entry} (ha : a ∈ above ∨ a ∈ below) :
    t.level a.handle ≠ t.level e.handle := by
  rw [ht.level_of_append there hw]
  rcases ha with ha | ha
  · obtain ⟨before, after, rfl⟩ := List.append_of_mem ha
    have first : t.trail x = before ++ a :: (after ++ e :: below) := by rw [hw]; simp
    rw [ht.level_of_append there first, List.length_append, List.length_cons]
    omega
  · obtain ⟨before, after, rfl⟩ := List.append_of_mem ha
    have second : t.trail x = (above ++ e :: before) ++ a :: after := by rw [hw]; simp
    rw [ht.level_of_append there second, List.length_append, List.length_cons]
    omega

/-- A first part of the path of a node is the path of a node on the way to it. -/
theorem Sound.exists_of_isPrefix (ht : t.Sound) (there : x ∈ t.entries.map (·.handle))
    {path : List String} (hp : path <+: t.localPath x) (nonempty : path ≠ []) :
    ∃ e ∈ t.entries, t.localPath e.handle = path ∧ t.Under e.handle x := by
  obtain ⟨rest, same⟩ := hp
  have long : path.length + 1 < (t.trail x).length := by
    have total := congrArg List.length same
    have positive := List.length_pos_of_ne_nil nonempty
    rw [length_localPath, List.length_append, level] at total
    omega
  obtain ⟨above, e, below, hw, size⟩ : ∃ above e below, t.trail x = above ++ e :: below ∧
      above.length = path.length + 1 :=
    ⟨(t.trail x).take (path.length + 1), (t.trail x)[path.length + 1], _,
      by rw [List.getElem_cons_drop, List.take_append_drop], by simp; omega⟩
  have path_eq : t.localPath e.handle = path := by
    have split := ht.alignedPath_of_append there hw
    have level := ht.level_of_append there hw
    have first : t.alignedPath e.handle ≠ [] := by
      rw [← List.length_pos_iff, length_alignedPath, level, size]
      omega
    have tails := congrArg List.tail split
    rw [List.tail_append_of_ne_nil first] at tails
    refine (List.append_inj (tails.symm.trans same.symm) ?_).1
    show (t.localPath e.handle).length = path.length
    rw [length_localPath, level, size, Nat.add_sub_cancel]
  refine ⟨e, (ht.trail_of_append there hw).1, path_eq, ?_⟩
  unfold Under
  rw [hw]
  simp

/-- The way to a child is the way to its parent and the child. -/
theorem Sound.trail_child (ht : t.Sound) {r s : Rose Entry} (hr : r ∈ t.forest.subtrees)
    (hs : s ∈ r.children.roots) :
    s.label ∈ t.entries ∧ t.trail s.label.handle = t.trail r.label.handle ++ [s.label] := by
  have child := Forest.label_mem_rootLabels hs
  obtain ⟨way, hw⟩ := Forest.trail?_of_mem_children ht.distinct hr child
  have trail : t.trail s.label.handle = way ++ r.label :: [s.label] := by
    rw [Tree.trail, hw, Option.getD_some]
  have there : s.label ∈ t.entries :=
    mem_entries_iff.2 (Forest.mem_preorder_of_mem_subtrees
      (Forest.mem_subtrees_of_children hr (Forest.mem_subtrees_of_mem_roots hs (Or.inl rfl)))
      List.mem_cons_self)
  refine ⟨there, ?_⟩
  rw [trail, (ht.trail_of_append (List.mem_map_of_mem there) trail).2, List.append_assoc]
  rfl

/-- The level of the node that a path leads to is the length of the path. -/
theorem Sound.level_of_leads (ht : t.Sound) {path : List String} (hx : t.leads path = some x) :
    t.level x = path.length := by
  induction path using List.reverseRecOn generalizing x with
  | nil =>
    cases hx
    simp [level, trail, forest, Forest.ofRose, Forest.trail?]
  | append_singleton path key ih =>
    obtain ⟨s, hs, rfl⟩ := Option.map_eq_some_iff.1 hx
    rw [follow_concat] at hs
    obtain ⟨r, hr, step⟩ := Option.bind_eq_some_iff.1 hs
    have inside : r ∈ t.forest.subtrees := mem_subtrees_of_follow t.top_mem_subtrees hr
    have above := ih (x := r.label.handle) (by rw [leads, hr, Option.map_some])
    have nonempty : 0 < (t.trail r.label.handle).length := by
      have there : r.label ∈ t.entries := mem_entries_iff.2
        (Forest.mem_preorder_of_mem_subtrees inside List.mem_cons_self)
      exact List.length_pos_of_ne_nil
        (Forest.ne_nil_of_mem_trails (ht.mem_trails_iff.2 ⟨there, rfl⟩).1)
    rw [level] at above
    rw [level, (ht.trail_child inside (stepAligned_mem step)).2, List.length_append,
      List.length_append, List.length_singleton, List.length_singleton]
    omega

/-! ## Nodes taken out -/

/-- A node that is left has the way that it had, and on it none of the nodes taken out. -/
theorem Sound.way_of_prune (ht : t.Sound) (ht' : t'.Sound) {hs : List Handle}
    (pruned : t'.firstKeyed = t.firstKeyed.prune (·.handle ∈ hs))
    (there : x ∈ t'.entries.map (·.handle)) :
    x ∈ t.entries.map (·.handle) ∧
      firstKeyedWay false (t.trail x) = firstKeyedWay false (t'.trail x) ∧
      ∀ h ∈ hs, ¬t.Under h x := by
  obtain ⟨e', he', rfl⟩ := List.mem_map.1 there
  obtain ⟨inside, last⟩ := ht'.mem_trails_iff.2 ⟨he', rfl⟩
  have left : firstKeyedWay false (t'.trail e'.handle) ∈ t'.firstKeyed.trails := by
    rw [firstKeyed, Forest.trails_firstKeyed]
    exact List.mem_map_of_mem inside
  rw [pruned, Forest.trails_prune, List.mem_filter, firstKeyed, Forest.trails_firstKeyed,
    List.mem_map] at left
  obtain ⟨⟨way, hway, same⟩, kept⟩ := left
  -- the way in `t` has the same handles, so it is the way to the same node
  have handles : way.map (·.handle) = (t'.trail e'.handle).map (·.handle) := by
    rw [← map_handle_firstKeyedWay false way, same, map_handle_firstKeyedWay]
  obtain ⟨e, hlast⟩ : ∃ e, way.getLast? = some e :=
    ⟨_, List.getLast?_eq_some_getLast (Forest.ne_nil_of_mem_trails hway)⟩
  have handle : e.handle = e'.handle := by
    have lasts := congrArg List.getLast? handles
    rw [List.getLast?_map, List.getLast?_map, hlast, last] at lasts
    exact Option.some.inj lasts
  obtain ⟨he, hw⟩ := ht.mem_trails_iff.1 ⟨hway, hlast⟩
  rw [handle] at hw
  refine ⟨handle ▸ List.mem_map_of_mem he, by rw [hw, same], fun h hh under => ?_⟩
  unfold Under at under
  rw [hw] at under
  obtain ⟨a, ha, rfl⟩ := List.mem_map.1 under
  rw [← same, Bool.not_eq_true', List.any_eq_false] at kept
  have there : a.handle ∈ (firstKeyedWay false way).map (·.handle) := by
    rw [map_handle_firstKeyedWay]
    exact List.mem_map_of_mem ha
  obtain ⟨b, hb, sameHandle⟩ := List.mem_map.1 there
  exact kept b hb (by simpa [sameHandle] using hh)

theorem Sound.left_of_prune (ht : t.Sound) (ht' : t'.Sound) {hs : List Handle}
    (pruned : t'.firstKeyed = t.firstKeyed.prune (·.handle ∈ hs))
    (there : x ∈ t'.entries.map (·.handle)) :
    x ∈ t.entries.map (·.handle) ∧ t'.alignedPath x = t.alignedPath x ∧
      ∀ h ∈ hs, ¬t.Under h x := by
  obtain ⟨before, same, kept⟩ := ht.way_of_prune ht' pruned there
  refine ⟨before, ?_, kept⟩
  rw [alignedPath_eq, alignedPath_eq, same]

/-! ## Nodes under a new key -/

section Renamed

variable {os : List Handle} {key : String}

/-- The entries of some nodes under a new key. -/
def keyedAs (os : List Handle) (key : String) (e : Entry) : Entry :=
  if e.handle ∈ os then { e with data := { e.data with key } } else e

theorem handle_keyedAs (os : List Handle) (key : String) (e : Entry) :
    (keyedAs os key e).handle = e.handle := by
  unfold keyedAs
  split <;> rfl

theorem type_keyedAs (os : List Handle) (key : String) (e : Entry) :
    (keyedAs os key e).data.type = e.data.type := by
  unfold keyedAs
  split <;> rfl

theorem map_keyedAs (key : String) (none : ∀ e ∈ above, e.handle ∉ os) :
    above.map (keyedAs os key) = above := by
  refine (List.map_congr_left fun e he => ?_).trans (List.map_id _)
  exact if_neg (none e he)

/-- A path that passes none of the nodes stays. -/
theorem alignedPath_of_kept (none : ∀ o ∈ os, ¬t.Under o x) :
    ({ t with top := t.top.map (keyedAs os key) } : Tree).alignedPath x = t.alignedPath x := by
  unfold alignedPath
  dsimp only
  rw [trail_map (handle_keyedAs os key), map_keyedAs key]
  exact fun e he inside => none _ inside (List.mem_map_of_mem he)

theorem zipWith_alignedKey_keyedAs (none : ∀ e ∈ below, e.handle ∉ os) :
    List.zipWith alignedKey (keyedAs os key e :: below) below =
      List.zipWith alignedKey (e :: below) below := by
  cases below with
  | nil => rfl
  | cons b below =>
    rw [List.zipWith_cons_cons, List.zipWith_cons_cons, alignedKey, type_keyedAs, alignedKey]

/-- A path that passes one of the nodes, a child of an object, has the new key there. -/
theorem Sound.alignedPath_renamed (ht : t.Sound) (key : String)
    (there : x ∈ t.entries.map (·.handle))
    (hw : t.trail x = above ++ p :: e :: below) (object : p.data.type ≠ .array) (here : e.handle ∈ os)
    (before : ∀ a ∈ above ++ [p], a.handle ∉ os) (after : ∀ a ∈ below, a.handle ∉ os) :
    t.alignedPath x = t.alignedPath p.handle ++ e.data.key ::
        List.zipWith alignedKey (e :: below) below ∧
      ({ t with top := t.top.map (keyedAs os key) } : Tree).alignedPath x =
        t.alignedPath p.handle ++ key :: List.zipWith alignedKey (e :: below) below := by
  have step : ∀ e' : Entry, alignedKey p e' = e'.data.key := fun e' => if_neg object
  constructor
  · rw [ht.alignedPath_of_append there hw, List.zipWith_cons_cons, step]
  · have renamed : (above ++ p :: e :: below).map (keyedAs os key) =
        above ++ p :: (keyedAs os key e :: below) := by
      have kept := map_keyedAs key before
      rw [List.map_append, List.map_singleton] at kept
      obtain ⟨first, second⟩ := List.append_inj' kept rfl
      rw [List.map_append, List.map_cons, List.map_cons, first, map_keyedAs key after,
        List.singleton_inj.1 second]
    have path : t.alignedPath p.handle =
        List.zipWith alignedKey (above ++ [p]) (above ++ [p]).tail := by
      unfold alignedPath
      dsimp only
      rw [(ht.trail_of_append there hw).2]
    have named : (keyedAs os key e).data.key = key := by rw [keyedAs, if_pos here]
    rw [path]
    unfold alignedPath
    dsimp only
    rw [trail_map (handle_keyedAs os key), hw, renamed, zipWith_tail_append,
      List.zipWith_cons_cons, step, named, zipWith_alignedKey_keyedAs after]

end Renamed

end LayeredConfig.Tree
