import LayeredConfig.Alignment
import LayeredConfig.Proofs.Forest.Relabelled
import LayeredConfig.Proofs.Forest.Trails
import LayeredConfig.Proofs.Tree.Overrides
import Mathlib.Data.List.Find

/-!
# What is left of a tree

An alignment path takes every item of an array for the first, so it reads the keys of a tree whose
items all bear the first item's key (`Tree.firstKeyed`, `alignedPath_eq`). In that tree the items
that an array keeps have nothing to be renumbered: a node removed is a subtree taken out
(`Sound.firstKeyed_remove`), and so are overrides (`Sound.firstKeyed_removeOverrides`).

What is left of a tree are the nodes that no removed node is on the way to, with their data but for
the keys of items (`Sound.map_data?_remove`, `Sound.map_data?_of_prune`, `Sound.map_data?_clear`).
-/

namespace LayeredConfig

/-! ## Items under the key of the first -/

/-- An entry under the key of the first item of an array, if it is one of the `items`. -/
def Entry.first (items : Bool) (e : Entry) : Entry :=
  if items then { e with data := { e.data with key := firstItemKey } } else e

namespace Forest

/-- The forest with the key of the first item on the items of its arrays, and on its own trees if
they are `items`. -/
def firstKeyed (items : Bool) : Forest Entry → Forest Entry
  | .nil => .nil
  | .cons e cs ss =>
    .cons (e.first items) (cs.firstKeyed (e.data.type == .array))
      (ss.firstKeyed items)

variable {f : Forest Entry} {h : Handle} {items : Bool}

@[simp] theorem handle_first (items : Bool) (e : Entry) : (e.first items).handle = e.handle := by
  cases items <;> rfl

theorem handles_firstKeyed (items : Bool) (f : Forest Entry) :
    (f.firstKeyed items).handles = f.handles := by
  induction f generalizing items with
  | nil => rfl
  | cons e cs ss ihc ihs =>
    rw [firstKeyed, handles_cons, handle_first, ihc, ihs, handles_cons]

theorem firstKeyed_renumbered (f : Forest Entry) :
    (Tree.renumbered f).firstKeyed true = f.firstKeyed true := by
  unfold Tree.renumbered
  generalize 0 = first
  induction f generalizing first with
  | nil => rfl
  | cons e cs ss _ ih => rw [mapRoots, firstKeyed, ih, firstKeyed]; rfl

theorem firstKeyed_prune (h : Handle) (items : Bool) (f : Forest Entry) :
    (f.prune (·.handle == h)).firstKeyed items = (f.firstKeyed items).prune (·.handle == h) := by
  induction f generalizing items with
  | nil => rfl
  | cons e cs ss ihc ihs =>
    rw [prune, firstKeyed, prune, handle_first]
    split
    · rw [ihs]
    · rw [firstKeyed, ihc, ihs]

theorem firstKeyed_childless (h : Handle) (items : Bool) (f : Forest Entry) :
    (f.adjust (·.handle == h) fun _ => .nil).firstKeyed items =
      (f.firstKeyed items).adjust (·.handle == h) fun _ => .nil := by
  induction f generalizing items with
  | nil => rfl
  | cons e cs ss ihc ihs =>
    rw [adjust, firstKeyed, firstKeyed, adjust, handle_first, ihs, ← ihc]
    split <;> rfl

/-- Changes below a node that differ in the keys of items only. -/
theorem firstKeyed_adjust_congr {g g' : Forest Entry → Forest Entry}
    (same : ∀ r ∈ f.subtrees, r.label.handle = h →
      (g r.children).firstKeyed (r.label.data.type == .array) =
        (g' r.children).firstKeyed (r.label.data.type == .array)) (items : Bool) :
    (f.adjust (·.handle == h) g).firstKeyed items =
      (f.adjust (·.handle == h) g').firstKeyed items := by
  induction f generalizing items with
  | nil => rfl
  | cons e cs ss ihc ihs =>
    simp only [subtrees, List.forall_mem_cons, List.forall_mem_append] at same
    rw [adjust, adjust, firstKeyed, firstKeyed, ihs same.2.2]
    by_cases here : e.handle = h
    · rw [if_pos (by simpa using here), if_pos (by simpa using here), same.1 here]
    · rw [if_neg (by simpa using here), if_neg (by simpa using here), ihc same.2.1]

end Forest

/-- A way with the key of the first item on the items of arrays, and on its first entry if that is
one of the `items`. -/
def firstKeyedWay (items : Bool) : List Entry → List Entry
  | [] => []
  | e :: way => (e.first items) :: firstKeyedWay (e.data.type == .array) way

theorem Forest.trails_firstKeyed (items : Bool) (f : Forest Entry) :
    (f.firstKeyed items).trails = f.trails.map (firstKeyedWay items) := by
  induction f generalizing items with
  | nil => rfl
  | cons e cs ss ihc ihs =>
    rw [Forest.firstKeyed, trails, ihc, ihs, trails, List.map_cons, List.map_append, List.map_map,
      List.map_map]
    rfl

theorem map_handle_firstKeyedWay (items : Bool) (way : List Entry) :
    (firstKeyedWay items way).map (·.handle) = way.map (·.handle) := by
  induction way generalizing items with
  | nil => rfl
  | cons e way ih =>
    rw [firstKeyedWay, List.map_cons, Forest.handle_first, ih, List.map_cons]

theorem getLast?_firstKeyedWay {items : Bool} {way : List Entry} {e : Entry}
    (last : (firstKeyedWay items way).getLast? = some e) :
    ∃ e₀ items', way.getLast? = some e₀ ∧ e = e₀.first items' := by
  induction way generalizing items with
  | nil => cases last
  | cons a way ih =>
    cases way with
    | nil => exact ⟨a, items, rfl, (Option.some.inj last).symm⟩
    | cons b way =>
      rw [firstKeyedWay, firstKeyedWay, List.getLast?_cons_cons, ← firstKeyedWay] at last
      rw [List.getLast?_cons_cons]
      exact ih last

theorem getLast?_firstKeyedWay_isSome (items : Bool) {way : List Entry} {e : Entry}
    (last : way.getLast? = some e) : ∃ items', (firstKeyedWay items way).getLast? = some (e.first items') := by
  induction way generalizing items with
  | nil => cases last
  | cons a way ih =>
    cases way with
    | nil =>
      cases last
      exact ⟨items, rfl⟩
    | cons b way =>
      rw [List.getLast?_cons_cons] at last
      obtain ⟨items', found⟩ := ih (a.data.type == .array) last
      refine ⟨items', ?_⟩
      rw [firstKeyedWay, firstKeyedWay, List.getLast?_cons_cons, ← firstKeyedWay, found]

/-- An alignment path reads the keys of a way after its first entry. -/
theorem map_key_firstKeyedWay (items : Bool) (way : List Entry) :
    (firstKeyedWay items way).tail.map (·.data.key) =
      List.zipWith Tree.alignedKey way way.tail := by
  induction way generalizing items with
  | nil => rfl
  | cons e way ih =>
    cases way with
    | nil => rfl
    | cons e' way =>
      have rest := ih (e.data.type == .array)
      rw [firstKeyedWay, List.tail_cons] at rest ⊢
      rw [firstKeyedWay, List.map_cons, rest]
      refine congrArg (· :: _) ?_
      unfold Tree.alignedKey
      by_cases array : e.data.type = .array
      · simp [array, Entry.first]
      · have object : (e.data.type == .array) = false := by simpa using array
        simp [array, object, Entry.first]

namespace Tree

/-- The nodes of a tree, the items of arrays all under the key of the first. -/
def firstKeyed (t : Tree) : Forest Entry := t.forest.firstKeyed false

variable {t : Tree} {h x : Handle} {e : Entry} {way : List Entry}

/-! ## The way to a node -/

theorem mem_entries_iff : e ∈ t.entries ↔ e ∈ t.forest.preorder := by
  rw [entries, forest, Rose.preorder_ofRose]

/-- Each node has one way, and the way ends with the node. -/
theorem Sound.mem_trails_iff (ht : t.Sound) :
    (way ∈ t.forest.trails ∧ way.getLast? = some e) ↔ e ∈ t.entries ∧ t.trail e.handle = way := by
  have found : ∀ {way}, way ∈ t.forest.trails → way.getLast? = some e → t.trail e.handle = way := by
    intro way inside last
    rw [trail, Forest.trail?_of_mem_trails ht.distinct inside last, Option.getD_some]
  rw [mem_entries_iff]
  constructor
  · rintro ⟨inside, last⟩
    exact ⟨Forest.mem_preorder_of_mem_trails inside (List.mem_of_getLast? last), found inside last⟩
  · rintro ⟨there, rfl⟩
    obtain ⟨way, inside, last⟩ := Forest.mem_preorder_iff_trails.1 there
    rw [found inside last]
    exact ⟨inside, last⟩

/-- Whether a node is `h` or below it. -/
def Under (t : Tree) (h x : Handle) : Prop := h ∈ (t.trail x).map (·.handle)

instance (t : Tree) (h x : Handle) : Decidable (t.Under h x) :=
  inferInstanceAs (Decidable (_ ∈ _))

/-- The alignment path of a node reads the keys on the way to it, first items standing for all. -/
theorem alignedPath_eq (t : Tree) (h : Handle) :
    t.alignedPath h = (firstKeyedWay false (t.trail h)).tail.map (·.data.key) :=
  (map_key_firstKeyedWay false _).symm

/-! ## Nodes removed -/

theorem Sound.firstKeyed_remove (ht : t.Sound) (below : h ≠ t.root) :
    (t.remove h).1.firstKeyed = t.firstKeyed.prune (·.handle == h) := by
  unfold Tree.remove
  split
  · rename_i p hp
    obtain ⟨r, hr, e, he, rfl⟩ := mem_children_iff.1 (ht.parent?_eq_some_iff.1 hp)
    have inside := find?_mem hr
    obtain rfl := find?_handle hr
    have kept : (t.keepChildren r.label.handle (·.handle != e.handle)).forest =
        t.forest.adjust (·.handle == r.label.handle) fun f =>
          if t.isArray r.label.handle then renumbered (f.filterRoots (·.handle != e.handle))
          else f.filterRoots (·.handle != e.handle) := rfl
    rw [firstKeyed, firstKeyed, ← Forest.firstKeyed_prune,
      ← Forest.adjust_filterRoots_eq_prune ht.distinct inside he, kept]
    refine Forest.firstKeyed_adjust_congr (fun s hs same => ?_) false
    rw [← isArray_of_find? (same ▸ ht.find?_of_mem hs)]
    cases t.isArray r.label.handle with
    | true => exact Forest.firstKeyed_renumbered _
    | false => rfl
  · rename_i none
    have missing : h ∉ t.forest.handles := fun inside => by
      obtain ⟨p, hp⟩ := ht.exists_parent inside below
      rw [hp] at none
      cases none
    rw [firstKeyed, Forest.prune_of_not_mem (by rwa [Forest.handles_firstKeyed])]

/-- Removing nodes one after the other. -/
theorem Sound.firstKeyed_removeAll (ht : t.Sound) {hs : List Handle} (below : t.root ∉ hs) :
    (hs.foldl (fun t h => (t.remove h).1) t).firstKeyed = t.firstKeyed.prune (·.handle ∈ hs) := by
  induction hs generalizing t with
  | nil =>
    rw [List.foldl_nil, Forest.prune_eq_self]
    simp
  | cons h hs ih =>
    rw [List.mem_cons, not_or] at below
    obtain ⟨other, rest⟩ := below
    have root : (t.remove h).1.root = t.root := by
      unfold Tree.remove
      split <;> rfl
    rw [List.foldl_cons, ih (ht.remove h) (root ▸ rest), ht.firstKeyed_remove (Ne.symm other),
      Forest.prune_prune]
    refine congrArg (Forest.prune · _) (funext fun e => ?_)
    simp [Bool.beq_eq_decide_eq]

theorem Sound.root_not_mem_overrides (ht : t.Sound) (path : List String) :
    t.root ∉ t.overrides path := by
  intro inside
  obtain ⟨-, -, -, y, -, parent⟩ := ht.parent_of_override inside
  rw [t.parent?_root] at parent
  cases parent

theorem Sound.firstKeyed_removeOverrides (ht : t.Sound) (path : List String) :
    (t.removeOverrides path).1.firstKeyed =
      t.firstKeyed.prune (·.handle ∈ t.overrides path) :=
  ht.firstKeyed_removeAll (ht.root_not_mem_overrides path)

theorem firstKeyed_clear (t : Tree) (h : Handle) :
    (t.clear h).firstKeyed = t.firstKeyed.adjust (·.handle == h) fun _ => .nil :=
  Forest.firstKeyed_childless h false t.forest

theorem clear_clear (t : Tree) (h : Handle) : (t.clear h).clear h = t.clear h := by
  refine ext_forest ?_ rfl rfl
  rw [clear, forest_adjust, clear, forest_adjust]
  induction t.forest with
  | nil => rfl
  | cons e cs ss ihc ihs =>
    rw [Forest.adjust, Forest.adjust, ihs]
    split
    · rfl
    · rw [ihc]

/-! ## Data changed -/

section Changed

variable {β : Type} {φ : NodeData → β}

theorem data?_map {g : Entry → Entry} (handle : ∀ e, (g e).handle = e.handle) (t : Tree)
    (x : Handle) : ({ t with top := t.top.map g } : Tree).data? x =
      (t.find? x).map fun r => (g r.label).data := by
  have found : ({ t with top := t.top.map g } : Tree).find? x = (t.find? x).map (Rose.map g) :=
    Forest.find?_map g (fun e => by rw [handle]) t.forest
  rw [data?, found, Option.map_map]
  rfl

theorem data?_modify (t : Tree) (h : Handle) (f : NodeData → NodeData) (x : Handle) :
    (t.modify h f).data? x = (t.data? x).map fun d => if x = h then f d else d := by
  refine (data?_map (fun e => by split <;> rfl) t x).trans ?_
  rw [data?, Option.map_map]
  refine Option.map_congr fun r hr => ?_
  have handle := find?_handle hr
  by_cases here : x = h
  · simp [handle, here]
  · simp [handle, here]

theorem data?_modifyAll (t : Tree) (f : NodeData → NodeData) (x : Handle) :
    (t.modifyAll f).data? x = (t.data? x).map f := by
  refine (data?_map (g := fun e => { e with data := f e.data }) (fun _ => rfl) t x).trans ?_
  rw [data?, Option.map_map]
  rfl

/-- Data changed in what `φ` does not look at. -/
theorem map_data?_modify {f : NodeData → NodeData} (hf : ∀ d, φ (f d) = φ d) (t : Tree)
    (h x : Handle) : ((t.modify h f).data? x).map φ = (t.data? x).map φ := by
  rw [data?_modify, Option.map_map]
  refine Option.map_congr fun d _ => ?_
  rw [Function.comp_apply]
  split
  · exact hf d
  · rfl

theorem map_data?_renameReferences (hφ : ∀ d v, φ { d with value := v } = φ d) (t : Tree)
    (h : Handle) (m : Markers) (old new : String) (x : Handle) :
    ((t.renameReferences h m old new).1.data? x).map φ = (t.data? x).map φ := by
  unfold renameReferences
  refine List.foldlRecOn (motive := fun u : Tree × Nat =>
    (u.1.data? x).map φ = (t.data? x).map φ) _ _ rfl fun u same node _ => ?_
  dsimp only
  split
  · rename_i text _
    rw [← same]
    exact map_data?_modify (f := fun d => { d with value := some (.string text) })
      (fun d => hφ d _) u.1 node x
  · exact same

theorem map_data?_alignOverrides {f : NodeData → NodeData} (hf : ∀ d, φ (f d) = φ d) (t : Tree)
    (path : List String) (x : Handle) :
    ((t.alignOverrides path fun t o => t.modify o f).1.data? x).map φ = (t.data? x).map φ := by
  unfold alignOverrides
  refine List.foldlRecOn (motive := fun u : Tree =>
    (u.data? x).map φ = (t.data? x).map φ) _ _ rfl fun u same o _ => ?_
  rw [← same]
  exact map_data?_modify hf u o x

/-! ## Ways under new data -/

variable {g : Entry → Entry}

theorem trail_map (handle : ∀ e, (g e).handle = e.handle) (t : Tree) (x : Handle) :
    ({ t with top := t.top.map g } : Tree).trail x = (t.trail x).map g := by
  have found : ∀ f : Forest Entry, (f.map g).trail? (·.handle == x) =
      (f.trail? (·.handle == x)).map (List.map g) := by
    intro f
    induction f with
    | nil => rfl
    | cons e cs ss ihc ihs =>
      rw [Forest.map, Forest.trail?, Forest.trail?, handle, ihc, ihs]
      split
      · rfl
      · cases cs.trail? (·.handle == x) <;> rfl
  unfold trail
  rw [show ({ t with top := t.top.map g } : Tree).forest = t.forest.map g from rfl, found]
  cases t.forest.trail? (·.handle == x) <;> rfl

theorem under_map (handle : ∀ e, (g e).handle = e.handle) (t : Tree) (h x : Handle) :
    ({ t with top := t.top.map g } : Tree).Under h x ↔ t.Under h x := by
  unfold Under
  rw [trail_map handle, List.map_map]
  refine Iff.of_eq (congrArg (h ∈ ·) (List.map_congr_left fun e _ => handle e))

theorem under_modify (t : Tree) (k : Handle) (f : NodeData → NodeData) (h x : Handle) :
    (t.modify k f).Under h x ↔ t.Under h x :=
  under_map (fun e => by split <;> rfl) t h x

theorem under_renameReferences (t : Tree) (k : Handle) (m : Markers) (old new : String)
    (h x : Handle) : (t.renameReferences k m old new).1.Under h x ↔ t.Under h x := by
  unfold renameReferences
  refine List.foldlRecOn (motive := fun u : Tree × Nat => u.1.Under h x ↔ t.Under h x) _ _
    Iff.rfl fun u same node _ => ?_
  dsimp only
  split
  · exact (under_modify _ _ _ _ _).trans same
  · exact same

theorem stepAligned_map {r : Rose Entry} (type : (g r.label).data.type = r.label.data.type)
    (keys : ∀ s ∈ r.children.roots, (g s.label).data.key = s.label.data.key) (k : String) :
    stepAligned (r.map g) k = (stepAligned r k).map (Rose.map g) := by
  unfold stepAligned stepKey
  rw [show (r.map g).label.data.type = r.label.data.type from type,
    show (r.map g).children = r.children.map g from rfl, Forest.findRoot?_eq_find?,
    Forest.findRoot?_eq_find?, Forest.roots_map, List.head?_map, List.find?_map]
  split
  · rfl
  · refine congrArg _ (List.find?_congr fun s hs => ?_)
    rw [Function.comp_apply, show (s.map g).label = g s.label from rfl, keys s hs]

theorem follow_map (key : ∀ e, (g e).data.key = e.data.key)
    (type : ∀ e, (g e).data.type = e.data.type) (r : Rose Entry) (path : List String) :
    follow stepAligned (r.map g) path = (follow stepAligned r path).map (Rose.map g) := by
  induction path generalizing r with
  | nil => rfl
  | cons k path ih =>
    rw [follow, follow, stepAligned_map (type r.label) fun s _ => key s.label, Option.map_bind,
      Option.bind_map]
    exact congrArg _ (funext fun c => ih c)

/-- Where handles, keys and types stay, so do the overrides of a path. -/
theorem overrides_map (handle : ∀ e, (g e).handle = e.handle)
    (key : ∀ e, (g e).data.key = e.data.key) (type : ∀ e, (g e).data.type = e.data.type)
    (t : Tree) (path : List String) :
    ({ t with top := t.top.map g } : Tree).overrides path = t.overrides path := by
  have found : ∀ x, ({ t with top := t.top.map g } : Tree).find? x =
      (t.find? x).map (Rose.map g) := fun x =>
    Forest.find?_map g (fun e => by rw [handle]) t.forest
  have root : ({ t with top := t.top.map g } : Tree).root = t.root := handle t.top.label
  have children : ({ t with top := t.top.map g } : Tree).children t.root = t.children t.root := by
    rw [Tree.children, Tree.children, ← root, below_of_find? (find?_root _), root,
      below_of_find? (find?_root t)]
    show (t.top.children.map g).rootLabels.map (·.handle) = _
    rw [Forest.rootLabels_map, List.map_map]
    exact List.map_congr_left fun e _ => handle e
  unfold overrides
  rw [root, children]
  split
  · rfl
  · refine congrArg (List.filterMap · _) (funext fun environment => ?_)
    unfold findAligned? walk?
    split
    · rfl
    · rw [found]
      cases t.find? environment with
      | none => rfl
      | some r =>
        rw [Option.map_some, Option.bind_some, Option.bind_some, follow_map key type,
          Option.map_map]
        exact Option.map_congr fun r' _ => handle r'.label

end Changed

/-! ## Data that are left -/

section Left

variable {t' : Tree} {β : Type} {φ : NodeData → β} {m : β}

theorem Sound.handles_of_mem_firstKeyed (ht : t.Sound) (hw : way ∈ t.firstKeyed.trails)
    (last : way.getLast? = some e) : way.map (·.handle) = (t.trail e.handle).map (·.handle) := by
  rw [firstKeyed, Forest.trails_firstKeyed, List.mem_map] at hw
  obtain ⟨way, inside, rfl⟩ := hw
  obtain ⟨e₀, items, last₀, rfl⟩ := getLast?_firstKeyedWay last
  rw [map_handle_firstKeyedWay, Forest.handle_first, (ht.mem_trails_iff.1 ⟨inside, last₀⟩).2]

/-- What of a node's data does not depend on the key can be read at the end of its way. -/
theorem Sound.map_data?_iff (ht : t.Sound)
    (hφ : ∀ items e, φ (Entry.first items e).data = φ e.data) :
    (t.data? x).map φ = some m ↔
      ∃ way ∈ t.firstKeyed.trails, ∃ e, way.getLast? = some e ∧ e.handle = x ∧ φ e.data = m := by
  rw [firstKeyed, Forest.trails_firstKeyed]
  constructor
  · intro known
    obtain ⟨d, hd, rfl⟩ := Option.map_eq_some_iff.1 known
    obtain ⟨r, hr, rfl⟩ := Option.map_eq_some_iff.1 hd
    have there : r.label ∈ t.entries := mem_entries_iff.2
      (Forest.mem_preorder_of_mem_subtrees (find?_mem hr) List.mem_cons_self)
    obtain ⟨inside, last⟩ := ht.mem_trails_iff.2 ⟨there, rfl⟩
    obtain ⟨items, last⟩ := getLast?_firstKeyedWay_isSome false last
    refine ⟨_, List.mem_map_of_mem inside, _, last, ?_, hφ _ _⟩
    rw [Forest.handle_first, find?_handle hr]
  · rintro ⟨way, inside, e, last, rfl, rfl⟩
    obtain ⟨_, hw, rfl⟩ := List.mem_map.1 inside
    obtain ⟨e₀, items, last₀, rfl⟩ := getLast?_firstKeyedWay last
    have there := (ht.mem_trails_iff.1 ⟨hw, last₀⟩).1
    rw [Forest.handle_first, ht.data?_of_mem (mem_entries_iff.1 there), Option.map_some, hφ]

/-- Where nodes are taken out, those are left that none of them is on the way to. -/
theorem Sound.map_data?_of_prune (ht : t.Sound) (ht' : t'.Sound) {hs : List Handle}
    (pruned : t'.firstKeyed = t.firstKeyed.prune (·.handle ∈ hs))
    (hφ : ∀ items e, φ (Entry.first items e).data = φ e.data) :
    (t'.data? x).map φ = some m ↔ (t.data? x).map φ = some m ∧ ¬∃ h ∈ hs, t.Under h x := by
  rw [ht'.map_data?_iff hφ, ht.map_data?_iff hφ, pruned, Forest.trails_prune]
  have clear : ∀ way : List Entry, (!way.any (·.handle ∈ hs)) = true ↔
      ¬∃ h ∈ hs, h ∈ way.map (·.handle) := by
    intro way
    simp only [Bool.not_eq_true', List.any_eq_false, List.mem_map, decide_eq_true_eq]
    constructor
    · rintro none ⟨h, hh, e, he, rfl⟩
      exact none e he hh
    · intro none e he hh
      exact none ⟨_, hh, e, he, rfl⟩
  constructor
  · rintro ⟨way, hw, e, last, rfl, rfl⟩
    obtain ⟨inside, kept⟩ := List.mem_filter.1 hw
    refine ⟨⟨way, inside, e, last, rfl, rfl⟩, ?_⟩
    unfold Under
    rw [← ht.handles_of_mem_firstKeyed inside last]
    exact (clear way).1 kept
  · rintro ⟨⟨way, inside, e, last, rfl, rfl⟩, kept⟩
    refine ⟨way, List.mem_filter.2 ⟨inside, (clear way).2 ?_⟩, e, last, rfl, rfl⟩
    rw [ht.handles_of_mem_firstKeyed inside last]
    exact kept

theorem Sound.map_data?_remove (ht : t.Sound) (below : h ≠ t.root)
    (hφ : ∀ items e, φ (Entry.first items e).data = φ e.data) :
    ((t.remove h).1.data? x).map φ = some m ↔ (t.data? x).map φ = some m ∧ ¬t.Under h x := by
  have pruned : (t.remove h).1.firstKeyed = t.firstKeyed.prune (·.handle ∈ [h]) := by
    rw [ht.firstKeyed_remove below]
    refine congrArg (Forest.prune · _) (funext fun e => ?_)
    simp [Bool.beq_eq_decide_eq]
  rw [ht.map_data?_of_prune (ht.remove h) pruned hφ]
  simp

/-- Where the nodes below a node are taken out, the others are left. -/
theorem Sound.map_data?_clear (ht : t.Sound)
    (hφ : ∀ items e, φ (Entry.first items e).data = φ e.data) :
    ((t.clear h).data? x).map φ = some m ↔
      (t.data? x).map φ = some m ∧ ¬(t.Under h x ∧ x ≠ h) := by
  rw [(ht.clear h).map_data?_iff hφ, ht.map_data?_iff hφ, firstKeyed_clear,
    Forest.trails_childless]
  have clear : ∀ way ∈ t.firstKeyed.trails, ∀ e, way.getLast? = some e →
      ((!way.dropLast.any (·.handle == h)) = true ↔ ¬(t.Under h e.handle ∧ e.handle ≠ h)) := by
    intro way inside e last
    have handles := ht.handles_of_mem_firstKeyed inside last
    have distinct : (way.map (·.handle)).Nodup := by
      have sub := ((Forest.sublist_preorder_of_mem_trails inside).map (·.handle))
      refine sub.nodup ?_
      have all := ht.distinct
      rwa [← Forest.handles_firstKeyed false] at all
    unfold Under
    rw [← handles]
    obtain ⟨way, rfl⟩ : ∃ init, way = init ++ [e] :=
      ⟨way.dropLast, (List.dropLast_append_getLast? e last).symm⟩
    rw [List.map_append, List.nodup_append'] at distinct
    have apart := distinct.2.2
    have outside : e.handle ∉ way.map (·.handle) := fun inside => apart inside (by simp)
    rw [List.dropLast_concat, Bool.not_eq_true', List.any_eq_false]
    constructor
    · rintro none ⟨there, other⟩
      rw [List.map_append, List.mem_append] at there
      rcases there with there | there
      · obtain ⟨a, ha, same⟩ := List.mem_map.1 there
        exact none a ha (by simpa using same)
      · exact other (List.mem_singleton.1 there).symm
    · intro kept a ha same
      rw [beq_iff_eq] at same
      have there : h ∈ way.map (·.handle) := List.mem_map.2 ⟨a, ha, same⟩
      refine kept ⟨?_, fun here => outside (here ▸ there)⟩
      rw [List.map_append]
      exact List.mem_append_left _ there
  constructor
  · rintro ⟨way, hw, e, last, rfl, rfl⟩
    obtain ⟨inside, kept⟩ := List.mem_filter.1 hw
    exact ⟨⟨way, inside, e, last, rfl, rfl⟩, (clear way inside e last).1 kept⟩
  · rintro ⟨⟨way, inside, e, last, rfl, rfl⟩, kept⟩
    exact ⟨way, List.mem_filter.2 ⟨inside, (clear way inside e last).2 kept⟩, e, last, rfl, rfl⟩

end Left

end Tree

end LayeredConfig
