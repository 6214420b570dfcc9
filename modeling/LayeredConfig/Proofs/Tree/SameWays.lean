import LayeredConfig.Proofs.Tree.Leads

/-!
# Trees with the same ways

Alignment looks at the handles, keys and types of nodes and at nothing else (`Entry.bare`). In trees
that agree in these (`SameWays`) the nodes have the same paths, and paths lead to the same nodes.
-/

namespace LayeredConfig

/-- What alignment looks at in a node. -/
def Entry.bare (e : Entry) : Entry := ⟨e.handle, { key := e.data.key, type := e.data.type }⟩

namespace Tree

variable {t t' t'' : Tree}

/-- Two trees have the same handles with the same keys and types. -/
def SameWays (t t' : Tree) : Prop := t'.top.map Entry.bare = t.top.map Entry.bare

theorem SameWays.refl (t : Tree) : t.SameWays t := rfl

theorem SameWays.trans (same : t.SameWays t') (same' : t'.SameWays t'') : t.SameWays t'' :=
  Eq.trans same' same

section Mapped

variable {g : Entry → Entry}

theorem leads_map (handle : ∀ e, (g e).handle = e.handle) (key : ∀ e, (g e).data.key = e.data.key)
    (type : ∀ e, (g e).data.type = e.data.type) (t : Tree) (path : List String) :
    ({ t with top := t.top.map g } : Tree).leads path = t.leads path := by
  unfold leads
  rw [follow_map key type, Option.map_map]
  exact Option.map_congr fun r _ => handle r.label

theorem alignedPath_map (handle : ∀ e, (g e).handle = e.handle)
    (key : ∀ e, (g e).data.key = e.data.key) (type : ∀ e, (g e).data.type = e.data.type) (t : Tree)
    (h : Handle) : ({ t with top := t.top.map g } : Tree).alignedPath h = t.alignedPath h := by
  have same : (fun a b => alignedKey (g a) (g b)) = alignedKey := by
    funext a b
    rw [alignedKey, alignedKey, key, type]
  unfold alignedPath
  dsimp only
  rw [trail_map handle, ← List.map_tail, List.zipWith_map, same]

theorem level_map (handle : ∀ e, (g e).handle = e.handle) (t : Tree) (h : Handle) :
    ({ t with top := t.top.map g } : Tree).level h = t.level h := by
  rw [level, level, trail_map handle, List.length_map]

theorem handles_map (handle : ∀ e, (g e).handle = e.handle) (t : Tree) :
    ({ t with top := t.top.map g } : Tree).entries.map (·.handle) = t.entries.map (·.handle) := by
  unfold entries
  dsimp only
  rw [Rose.preorder, Rose.preorder, Rose.map, Forest.preorder_map, List.map_cons, List.map_cons,
    List.map_map]
  exact congrArg₂ _ (handle _) (List.map_congr_left fun e _ => handle e)

theorem sameWays_map (hg : ∀ e, (g e).bare = e.bare) (t : Tree) :
    t.SameWays { t with top := t.top.map g } := by
  unfold SameWays
  rw [Rose.map_map]
  exact congrArg (t.top.map ·) (funext hg)

end Mapped

theorem sameWays_modify {f : NodeData → NodeData} (key : ∀ e, (f e).key = e.key)
    (type : ∀ e, (f e).type = e.type) (t : Tree) (h : Handle) : t.SameWays (t.modify h f) := by
  refine sameWays_map (fun e => ?_) t
  split
  · rw [Entry.bare, key, type, Entry.bare]
  · rfl

theorem sameWays_modifyAll {f : NodeData → NodeData} (key : ∀ e, (f e).key = e.key)
    (type : ∀ e, (f e).type = e.type) (t : Tree) : t.SameWays (t.modifyAll f) :=
  sameWays_map (fun e => by rw [Entry.bare, key, type, Entry.bare]) t

theorem sameWays_renameReferences (t : Tree) (h : Handle) (m : Markers) (old new : String) :
    t.SameWays (t.renameReferences h m old new).1 := by
  unfold renameReferences
  refine List.foldlRecOn (motive := fun u : Tree × Nat => t.SameWays u.1) _ _ (.refl t)
    fun u same node _ => ?_
  dsimp only
  split
  · rename_i text _
    exact same.trans (sameWays_modify (f := fun d => { d with value := some (.string text) })
      (fun _ => rfl) (fun _ => rfl) u.1 node)
  · exact same

namespace SameWays

variable (same : t.SameWays t')
include same

theorem leads (path : List String) : t'.leads path = t.leads path := by
  have bare := fun u : Tree => leads_map (g := Entry.bare) (fun _ => rfl) (fun _ => rfl)
    (fun _ => rfl) u path
  rw [← bare t', ← bare t]
  unfold Tree.leads
  rw [show t'.top.map Entry.bare = _ from same]

theorem alignedPath (h : Handle) : t'.alignedPath h = t.alignedPath h := by
  have bare := fun u : Tree => alignedPath_map (g := Entry.bare) (fun _ => rfl) (fun _ => rfl)
    (fun _ => rfl) u h
  rw [← bare t', ← bare t]
  unfold Tree.alignedPath trail forest
  rw [show t'.top.map Entry.bare = _ from same]

theorem trail_handles (h : Handle) :
    (t'.trail h).map (·.handle) = (t.trail h).map (·.handle) := by
  have bare : ∀ u : Tree, (u.trail h).map (·.handle) =
      (({ u with top := u.top.map Entry.bare } : Tree).trail h).map (·.handle) := by
    intro u
    rw [trail_map (g := Entry.bare) fun _ => rfl, List.map_map]
    rfl
  rw [bare t', bare t]
  unfold trail forest
  rw [show t'.top.map Entry.bare = _ from same]

theorem under (h x : Handle) : t'.Under h x ↔ t.Under h x := by
  unfold Under
  rw [same.trail_handles]

theorem overrides (path : List String) : t'.overrides path = t.overrides path := by
  have bare := fun u : Tree => overrides_map (g := Entry.bare) (fun _ => rfl) (fun _ => rfl)
    (fun _ => rfl) u path
  rw [← bare t', ← bare t]
  unfold Tree.overrides Tree.children findAligned? walk? Tree.below find? forest Tree.root
  rw [show t'.top.map Entry.bare = _ from same]

theorem level (h : Handle) : t'.level h = t.level h := by
  have lengths := congrArg List.length (same.trail_handles h)
  rw [List.length_map, List.length_map] at lengths
  rw [Tree.level, Tree.level, lengths]

theorem handles : t'.entries.map (·.handle) = t.entries.map (·.handle) := by
  have bare := handles_map (g := Entry.bare) fun _ => rfl
  rw [← bare t', ← bare t]
  unfold entries
  rw [show t'.top.map Entry.bare = _ from same]

theorem modify (h : Handle) (new : NodeData) :
    (t.modify h fun _ => new).SameWays (t'.modify h fun _ => new) := by
  have write : ∀ u : Tree, (u.modify h fun _ => new).top.map Entry.bare =
      (u.top.map Entry.bare).map fun e => (written h new e).bare := by
    intro u
    rw [top_modify, Rose.map_map, Rose.map_map]
    refine congrArg (u.top.map ·) (funext fun e => ?_)
    unfold written
    rw [Function.comp_apply, Function.comp_apply]
    by_cases here : e.handle = h <;> simp [here, Entry.bare]
  unfold SameWays
  rw [write, write, show t'.top.map Entry.bare = _ from same]

theorem clear (h : Handle) : (t.clear h).SameWays (t'.clear h) := by
  have write : ∀ u : Tree, (u.clear h).top.map Entry.bare =
      (u.top.map Entry.bare).adjust (·.handle == h) fun _ => .nil := by
    intro u
    have children : (u.top.children.adjust (·.handle == h) fun _ => .nil).map Entry.bare =
        (u.top.children.map Entry.bare).adjust (·.handle == h) fun _ => .nil :=
      Forest.map_adjust (g := Entry.bare) (h := fun _ => .nil) (fun _ => rfl) (fun _ => rfl) _
    unfold Tree.clear Tree.adjust Rose.adjust Rose.map
    dsimp only
    rw [← children]
    show (⟨_, _⟩ : Rose Entry) = ⟨_, if u.top.label.handle == h then _ else _⟩
    split <;> rfl
  unfold SameWays
  rw [write, write, show t'.top.map Entry.bare = _ from same]

end SameWays

end Tree

end LayeredConfig
