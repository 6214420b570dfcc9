import LayeredConfig.Proofs.Session.Aligned

/-!
# Where the search for overrides is exact

The search for the overrides of a default node follows its path from every environment, and takes
the first item of an array on the way. Where sibling keys are unique and neither a node above the
default node nor an override of one is an array (`OutsideArrays`), it finds just the nodes of which
the default node is the counterpart (`OutsideArrays.findsAll`, `OutsideArrays.findsOnly`).
-/

namespace LayeredConfig

namespace Tree

variable {t : Tree} {a d x : Handle} {e : Entry} {r s : Rose Entry} {path rest : List String}
  {key : String} {below : List Entry}

theorem zipWith_alignedKey_of_objects (objects : ∀ a ∈ (e :: below).dropLast, a.data.type ≠ .array) :
    List.zipWith alignedKey (e :: below) below = below.map (·.data.key) := by
  induction below generalizing e with
  | nil => rfl
  | cons b below ih =>
    rw [List.dropLast_cons_of_ne_nil (List.cons_ne_nil _ _), List.forall_mem_cons] at objects
    rw [List.zipWith_cons_cons, ih objects.2, alignedKey, if_neg objects.1, List.map_cons]

theorem mem_entries_of_subtrees (hr : r ∈ t.forest.subtrees) : r.label ∈ t.entries :=
  mem_entries_iff.2 (Forest.mem_preorder_of_mem_subtrees hr List.mem_cons_self)

theorem Sound.trail_getLast? (ht : t.Sound) (hr : r ∈ t.forest.subtrees) :
    (t.trail r.label.handle).getLast? = some r.label :=
  (ht.mem_trails_iff.2 ⟨mem_entries_of_subtrees hr, rfl⟩).2

/-- The entry that comes after a node on a way is one of its children. -/
theorem Sound.exists_child (ht : t.Sound) (hr : r ∈ t.forest.subtrees)
    (there : x ∈ t.entries.map (·.handle)) (hw : t.trail x = t.trail r.label.handle ++ e :: below) :
    ∃ s ∈ r.children.roots, s.label = e := by
  obtain ⟨inside, trail⟩ := ht.trail_of_append there hw
  have parent : t.parent? e.handle = some r.label.handle := by
    rw [parent?, trail, List.dropLast_concat, ht.trail_getLast? hr, Option.map_some]
  obtain ⟨r', hr', e', he', same⟩ := mem_children_iff.1 (ht.parent?_eq_some_iff.1 parent)
  cases (ht.find?_of_mem hr).symm.trans hr'
  rw [Forest.rootLabels_eq_map_roots] at he'
  obtain ⟨s, hs, rfl⟩ := List.mem_map.1 he'
  exact ⟨s, hs, ht.eq_of_handle (mem_entries_iff.1 (ht.trail_child hr hs).1)
    (mem_entries_iff.1 inside) same⟩

/-- Where keys are unique the keys on a way lead along it, as far as no array is on it. -/
theorem Sound.follow_keys (ht : t.Sound) (hu : t.UniqueKeys) (hr : r ∈ t.forest.subtrees)
    (there : x ∈ t.entries.map (·.handle)) (hw : t.trail x = t.trail r.label.handle ++ below)
    (objects : ∀ a ∈ (r.label :: below).dropLast, a.data.type ≠ .array) :
    (follow stepAligned r (below.map (·.data.key))).map (·.label.handle) = some x := by
  induction below generalizing r with
  | nil =>
    obtain ⟨ex, hx, rfl⟩ := List.mem_map.1 there
    have last := (ht.mem_trails_iff.2 ⟨hx, rfl⟩).2
    rw [hw, List.append_nil, ht.trail_getLast? hr] at last
    rw [← Option.some.inj last]
    rfl
  | cons e below ih =>
    obtain ⟨s, hs, rfl⟩ := ht.exists_child hr there hw
    rw [List.dropLast_cons_of_ne_nil (List.cons_ne_nil _ _), List.forall_mem_cons] at objects
    have distinct : (r.children.rootKeys (·.data.key)).Nodup := by
      rw [Forest.rootKeys_eq_map_rootLabels]
      exact uniqueKeys_iff.1 hu r hr
    have step : stepAligned r s.label.data.key = some s := by
      unfold stepAligned stepKey
      rw [if_neg fun array => objects.1 array.2]
      exact @Forest.findRoot?_of_mem Entry (·.data.key) _ distinct _ hs
    rw [List.map_cons, follow, step, Option.bind_some]
    refine ih (mem_subtrees_of_step hr step) ?_ objects.2
    rw [hw, (ht.trail_child hr hs).2, List.append_assoc]
    rfl

/-- The node that a first part of a path leads to is above the node that the path leads to. -/
theorem Sound.under_of_leads (ht : t.Sound) (ha : t.leads path = some a)
    (hd : t.leads (path ++ rest) = some d) : t.Under a d ∧ (rest ≠ [] → a ≠ d) := by
  refine ⟨?_, fun nonempty same => ?_⟩
  · induction rest using List.reverseRecOn generalizing d with
    | nil =>
      rw [List.append_nil, ha] at hd
      cases hd
      obtain ⟨r, hr, rfl⟩ := Option.map_eq_some_iff.1 ha
      exact List.mem_map_of_mem (List.mem_of_getLast? (ht.trail_getLast?
        (mem_subtrees_of_follow t.top_mem_subtrees hr)))
    | append_singleton rest key ih =>
      obtain ⟨s, hs, rfl⟩ := Option.map_eq_some_iff.1 hd
      rw [← List.append_assoc, follow_concat] at hs
      obtain ⟨r, hr, step⟩ := Option.bind_eq_some_iff.1 hs
      have above := ih (d := r.label.handle) (by rw [leads, hr, Option.map_some])
      unfold Under at above ⊢
      rw [(ht.trail_child (mem_subtrees_of_follow t.top_mem_subtrees hr) (stepAligned_mem step)).2,
        List.map_append]
      exact List.mem_append_left _ above
  · have level := ht.level_of_leads ha
    rw [same, ht.level_of_leads hd, List.length_append] at level
    have := List.length_pos_of_ne_nil nonempty
    omega

/-- The last step of a path to a node. -/
theorem Sound.alignedPath_child (ht : t.Sound) (hr : r ∈ t.forest.subtrees)
    (hs : s ∈ r.children.roots) :
    t.alignedPath s.label.handle = t.alignedPath r.label.handle ++ [alignedKey r.label s.label] := by
  obtain ⟨there, trail⟩ := ht.trail_child hr hs
  obtain ⟨way, hw⟩ : ∃ way, t.trail r.label.handle = way ++ [r.label] :=
    ⟨_, (List.dropLast_append_getLast? _ (ht.trail_getLast? hr)).symm⟩
  rw [hw, List.append_assoc, List.singleton_append] at trail
  exact ht.alignedPath_of_append (List.mem_map_of_mem there) trail

theorem Sound.trail_dropLast (ht : t.Sound) (there : x ∈ t.entries.map (·.handle))
    (he : e ∈ (t.trail x).dropLast) : e ∈ t.entries ∧ t.Under e.handle x ∧ e.handle ≠ x := by
  obtain ⟨ex, hx, rfl⟩ := List.mem_map.1 there
  obtain ⟨before, after, split⟩ := List.append_of_mem he
  have hw : t.trail ex.handle = before ++ e :: (after ++ [ex]) := by
    rw [← List.dropLast_append_getLast? _ (ht.mem_trails_iff.2 ⟨hx, rfl⟩).2, split]
    simp
  obtain ⟨inside, trail⟩ := ht.trail_of_append there hw
  refine ⟨inside, List.mem_map_of_mem ((List.dropLast_sublist _).subset he), fun same => ?_⟩
  rw [same, hw] at trail
  simp at trail

/-- A path along which there are objects is the path of the node that it leads to. -/
theorem Sound.alignedPath_of_leads (ht : t.Sound) (hd : t.leads path = some d)
    (objects : ∀ a ∈ (t.trail d).dropLast, a.data.type ≠ .array) : t.alignedPath d = path := by
  induction path using List.reverseRecOn generalizing d with
  | nil =>
    refine List.length_eq_zero_iff.1 ?_
    rw [length_alignedPath, ht.level_of_leads hd, List.length_nil]
  | append_singleton path key ih =>
    obtain ⟨s, hs, rfl⟩ := Option.map_eq_some_iff.1 hd
    rw [follow_concat] at hs
    obtain ⟨r, hr, step⟩ := Option.bind_eq_some_iff.1 hs
    have inside := mem_subtrees_of_follow t.top_mem_subtrees hr
    have child := stepAligned_mem step
    rw [(ht.trail_child inside child).2, List.dropLast_concat] at objects
    have object := objects r.label (List.mem_of_getLast? (ht.trail_getLast? inside))
    unfold stepAligned at step
    rw [if_neg fun array => object array.2] at step
    rw [ht.alignedPath_child inside child, alignedKey, if_neg object, key_of_findRoot? step,
      ih (d := r.label.handle) (by rw [leads, hr, Option.map_some]) fun a ha =>
        objects a ((List.dropLast_sublist _).subset ha)]

theorem exists_trail_eq (there : x ∈ t.entries.map (·.handle)) :
    ∃ rest, t.trail x = t.top.label :: rest := by
  cases found : t.forest.trail? (·.handle == x) with
  | none =>
    obtain ⟨e, he, rfl⟩ := List.mem_map.1 there
    exact absurd (List.mem_map_of_mem (mem_entries_iff.1 he))
      (Forest.find?_eq_none_iff_handles.1 (Forest.trail?_eq_none_iff.1 found))
  | some way =>
    obtain ⟨a, rest, rfl, root, -⟩ := Forest.trail?_head found
    rw [List.mem_singleton.1 root] at found
    exact ⟨rest, by rw [trail, found, Option.getD_some]⟩

theorem trail_root (t : Tree) : t.trail t.top.label.handle = [t.top.label] := by
  simp [trail, forest, Forest.ofRose, Forest.trail?]

end Tree

namespace Configuration

variable {c : Configuration} {d x : Handle} {e : Entry} {before after : List Entry}
  {r s : Rose Entry} {path rest : List String}

/-- Neither a node above a default node nor an override of one is an array. -/
structure OutsideArrays (c : Configuration) (d : Handle) : Prop where
  default : ∀ e ∈ c.default.entries, c.default.Under e.handle d → e.handle ≠ d →
    e.data.type ≠ .array
  overrides : ∀ e ∈ c.environments.entries, ∀ a, c.counterpart? e.handle = some a →
    c.default.Under a d → a ≠ d → e.data.type ≠ .array

theorem OutsideArrays.objects (out : c.OutsideArrays d) (hc : c.Sound)
    (there : d ∈ c.default.entries.map (·.handle)) :
    ∀ a ∈ (c.default.trail d).dropLast, a.data.type ≠ .array := by
  intro a ha
  obtain ⟨inside, under, other⟩ := hc.1.trail_dropLast there ha
  exact out.default a inside under other

/-- The path of a default node outside arrays leads to it. -/
theorem OutsideArrays.leads (out : c.OutsideArrays d) (hc : c.Sound) (hu : c.UniqueKeys)
    (there : d ∈ c.default.entries.map (·.handle)) :
    c.default.leads (c.default.alignedPath d) = some d := by
  obtain ⟨rest, hw⟩ := Tree.exists_trail_eq there
  have objects := out.objects hc there
  rw [hw] at objects
  have path : c.default.alignedPath d = rest.map (·.data.key) := by
    rw [← Tree.zipWith_alignedKey_of_objects objects]
    unfold Tree.alignedPath
    dsimp only
    rw [hw, List.tail_cons]
  rw [path]
  refine hc.1.follow_keys hu.1 c.default.top_mem_subtrees there ?_ objects
  rw [hw, Tree.trail_root, List.singleton_append]

/-- A node strictly above one of the environments has a counterpart above that of the other. -/
theorem counterpart?_above (hc : c.Sound) (there : x ∈ c.environments.entries.map (·.handle))
    (hx : c.counterpart? x = some d) (hw : c.environments.trail x = before ++ e :: after)
    (inside : before ≠ []) (strictly : after ≠ []) :
    ∃ a, c.counterpart? e.handle = some a ∧ c.default.Under a d ∧ a ≠ d := by
  have first : c.environments.alignedPath e.handle ≠ [] := by
    rw [← List.length_pos_iff, Tree.length_alignedPath, hc.2.level_of_append there hw]
    exact List.length_pos_of_ne_nil inside
  have path : c.environments.localPath x = c.environments.localPath e.handle ++
      List.zipWith Tree.alignedKey (e :: after) after := by
    rw [Tree.localPath, hc.2.alignedPath_of_append there hw, List.tail_append_of_ne_nil first,
      Tree.localPath]
  rw [counterpart?_eq, path] at hx
  obtain ⟨a, ha⟩ := Tree.leads_of_isPrefix hx (List.prefix_append _ _)
  obtain ⟨under, other⟩ := hc.1.under_of_leads ha hx
  refine ⟨a, by rw [counterpart?_eq, ha], under, other ?_⟩
  cases after with
  | nil => exact absurd rfl strictly
  | cons b after => exact List.cons_ne_nil _ _

theorem findAligned?_of_mem {t : Tree} (ht : t.Sound) {r : Rose Entry} (hr : r ∈ t.forest.subtrees)
    {path : List String} (nonempty : path ≠ []) :
    t.findAligned? r.label.handle path =
      (Tree.follow Tree.stepAligned r path).map (·.label.handle) := by
  unfold Tree.findAligned? Tree.walk?
  rw [if_neg (by simpa using nonempty), ht.find?_of_mem hr, Option.bind_some]

/-- A node strictly below an environment is reached from it. -/
theorem exists_environment (hc : c.Sound) (there : x ∈ c.environments.entries.map (·.handle))
    (level : 2 ≤ c.environments.level x) :
    ∃ r ∈ c.environments.top.children.roots, ∃ below, below ≠ [] ∧
      c.environments.trail x = c.environments.top.label :: r.label :: below := by
  obtain ⟨rest, hw⟩ := Tree.exists_trail_eq there
  rw [Tree.level, hw, List.length_cons] at level
  cases rest with
  | nil => simp at level
  | cons e below =>
    obtain ⟨r, hr, rfl⟩ := hc.2.exists_child c.environments.top_mem_subtrees there
      (by rw [hw, Tree.trail_root, List.singleton_append])
    refine ⟨r, hr, below, ?_, hw⟩
    rintro rfl
    simp at level

/-- From an environment down to an override of a default node outside arrays there are objects. -/
theorem OutsideArrays.objects_below (out : c.OutsideArrays d) (hc : c.Sound)
    (there : x ∈ c.environments.entries.map (·.handle)) (hx : c.counterpart? x = some d)
    (hw : c.environments.trail x = c.environments.top.label :: e :: after) (nonempty : after ≠ []) :
    ∀ a ∈ (e :: after).dropLast, a.data.type ≠ .array := by
  intro a ha
  obtain ⟨before, between, split⟩ := List.append_of_mem ha
  have last : (e :: after).dropLast ++ [after.getLast nonempty] = e :: after := by
    rw [← List.getLast_cons nonempty, List.dropLast_append_getLast]
  have whole : c.environments.trail x =
      (c.environments.top.label :: before) ++ a :: (between ++ [after.getLast nonempty]) := by
    rw [hw, ← last, split]
    simp
  obtain ⟨a', counterpart, under, other⟩ :=
    counterpart?_above hc there hx whole (List.cons_ne_nil _ _) (by simp)
  exact out.overrides a (hc.2.trail_of_append there whole).1 a' counterpart under other

theorem OutsideArrays.findsAll (out : c.OutsideArrays d) (hc : c.Sound) (hu : c.UniqueKeys) :
    c.FindsAll d := by
  intro e he level hx
  have there : e.handle ∈ c.environments.entries.map (·.handle) := List.mem_map_of_mem he
  obtain ⟨r, hr, below, nonempty, hw⟩ := exists_environment hc there level
  have objects := out.objects_below hc there hx hw nonempty
  have inside : r ∈ c.environments.forest.subtrees :=
    Forest.mem_subtrees_of_children c.environments.top_mem_subtrees
      (Forest.mem_subtrees_of_mem_roots hr (Or.inl rfl))
  have keys : below.map (·.data.key) ≠ [] := by simpa using nonempty
  have path : c.environments.localPath e.handle = below.map (·.data.key) := by
    rw [← Tree.zipWith_alignedKey_of_objects objects]
    unfold Tree.localPath Tree.alignedPath
    dsimp only
    rw [hw]
    rfl
  have same : c.default.alignedPath d = below.map (·.data.key) := by
    rw [counterpart?_eq, path] at hx
    obtain ⟨s, hs, rfl⟩ := Option.map_eq_some_iff.1 hx
    have known := Tree.mem_entries_of_subtrees
      (Tree.mem_subtrees_of_follow c.default.top_mem_subtrees hs)
    exact hc.1.alignedPath_of_leads hx (out.objects hc (List.mem_map_of_mem known))
  have found : c.environments.findAligned? r.label.handle (below.map (·.data.key)) =
      some e.handle := by
    rw [findAligned?_of_mem hc.2 inside keys]
    refine hc.2.follow_keys hu.2 inside there ?_ objects
    rw [hw, (hc.2.trail_child c.environments.top_mem_subtrees hr).2, Tree.trail_root]
    simp
  unfold Tree.overrides
  rw [same, if_neg (by simpa using nonempty)]
  refine List.mem_filterMap.2 ⟨r.label.handle, ?_, found⟩
  exact Tree.mem_children_iff.2
    ⟨_, Tree.find?_root _, r.label, Forest.label_mem_rootLabels hr, rfl⟩

/-- On the path of a default node outside arrays the search meets objects, and goes by their keys. -/
theorem OutsideArrays.alignedPath_of_follow (out : c.OutsideArrays d) (hc : c.Sound)
    (hd : c.default.leads (path ++ rest) = some d) (hr : r ∈ c.environments.top.children.roots)
    (hs : Tree.follow Tree.stepAligned r path = some s) :
    c.environments.alignedPath s.label.handle =
      Tree.alignedKey c.environments.top.label r.label :: path := by
  have inside : r ∈ c.environments.forest.subtrees :=
    Forest.mem_subtrees_of_children c.environments.top_mem_subtrees
      (Forest.mem_subtrees_of_mem_roots hr (Or.inl rfl))
  induction path using List.reverseRecOn generalizing rest s with
  | nil =>
    cases hs
    have root : c.environments.alignedPath c.environments.top.label.handle = [] := by
      unfold Tree.alignedPath
      dsimp only
      rw [Tree.trail_root]
      rfl
    rw [hc.2.alignedPath_child c.environments.top_mem_subtrees hr, root, List.nil_append]
  | append_singleton path key ih =>
    rw [Tree.follow_concat] at hs
    obtain ⟨y, hy, step⟩ := Option.bind_eq_some_iff.1 hs
    have there := Tree.mem_subtrees_of_follow inside hy
    rw [List.append_assoc, List.singleton_append] at hd
    have above := ih hd hy
    obtain ⟨a, ha⟩ := Tree.leads_of_isPrefix hd (List.prefix_append _ _)
    obtain ⟨under, other⟩ := hc.1.under_of_leads ha hd
    have object : y.label.data.type ≠ .array := by
      refine out.overrides _ (Tree.mem_entries_of_subtrees there) a ?_ under
        (other (List.cons_ne_nil _ _))
      rw [counterpart?_eq, Tree.localPath, above, List.tail_cons, ha]
    have child := Tree.stepAligned_mem step
    have keyed : Tree.alignedKey y.label s.label = key := by
      unfold Tree.stepAligned at step
      rw [if_neg fun array => object array.2] at step
      rw [Tree.alignedKey, if_neg object]
      exact Tree.key_of_findRoot? step
    rw [hc.2.alignedPath_child there child, above, keyed, List.cons_append]

theorem OutsideArrays.findsOnly (out : c.OutsideArrays d) (hc : c.Sound) (hu : c.UniqueKeys) :
    c.FindsOnly d := by
  intro o ho
  obtain ⟨nonempty, environment, inside, found⟩ := Tree.mem_overrides ho
  obtain ⟨top, htop, e, he, rfl⟩ := Tree.mem_children_iff.1 inside
  cases (Tree.find?_root c.environments).symm.trans htop
  rw [Forest.rootLabels_eq_map_roots] at he
  obtain ⟨r, hr, rfl⟩ := List.mem_map.1 he
  have there : d ∈ c.default.entries.map (·.handle) := by
    by_contra missing
    refine nonempty ?_
    have none : c.default.forest.trail? (·.handle == d) = none := by
      refine Forest.trail?_eq_none_iff.2 (Forest.find?_eq_none_iff_handles.2 fun inside => ?_)
      obtain ⟨e, he, rfl⟩ := Forest.mem_handles.1 inside
      exact missing (List.mem_map_of_mem (Tree.mem_entries_iff.2 he))
    unfold Tree.alignedPath Tree.trail
    rw [none]
    rfl
  have leads := out.leads hc hu there
  rw [findAligned?_of_mem hc.2 (Forest.mem_subtrees_of_children c.environments.top_mem_subtrees
    (Forest.mem_subtrees_of_mem_roots hr (Or.inl rfl))) nonempty] at found
  obtain ⟨s, hs, rfl⟩ := Option.map_eq_some_iff.1 found
  have whole : c.default.leads (c.default.alignedPath d ++ []) = some d := by
    rwa [List.append_nil]
  have path := out.alignedPath_of_follow hc whole hr hs
  rw [counterpart?_eq, Tree.localPath, path, List.tail_cons, leads]

end Configuration

end LayeredConfig
