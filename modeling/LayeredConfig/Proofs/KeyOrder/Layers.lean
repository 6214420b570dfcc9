import LayeredConfig.Proofs.Compile.Environments
import LayeredConfig.Proofs.Forest.Reordered

/-!
# The order of keys and the layers

Trees that differ in the order of the children of objects give documents that do
(`Rose.Reordered.layered`), and so does putting one over another (`Rose.Reordered.overlay`). In two
such documents a place leads to nodes that differ in this way only (`Rose.Reordered.at?`).

Two configurations that differ in the order of keys have lineages in step and merged documents that
differ in the order of keys (`Configuration.SameButOrder.lineage`,
`Configuration.SameButOrder.merged`).
-/

namespace LayeredConfig

/-- Whether a node is an object. -/
def NodeData.isObject (d : NodeData) : Bool := d.type = .object

/-- Whether a node of merged layers is an object. -/
def Layered.isObject (l : Layered) : Bool := l.shape = .object

theorem Layered.isObject_ofData (d : NodeData) : (Layered.ofData d).isObject = d.isObject := by
  cases d with
  | mk key type => cases type <;> rfl

theorem Layered.isObject_of_shape {l : Layered} (h : l.shape = .object) : l.isObject = true :=
  decide_eq_true h

theorem Layered.isObject_of_ne {l : Layered} (h : l.shape ≠ .object) : l.isObject = false :=
  decide_eq_false h

/-! ## Single layers -/

theorem Forest.Reordered.layered {free : Bool} {f f' : Forest NodeData}
    (h : f.Reordered NodeData.isObject free f') :
    f.layered.Reordered Layered.isObject free f'.layered := by
  induction h with
  | nil => exact .nil
  | cons _ _ ihc ihs =>
    rw [Forest.layered, Forest.layered]
    refine .cons ?_ ihs
    split
    · exact .nil
    · rw [Layered.isObject_ofData]
      exact ihc
  | swap => exact .swap
  | trans _ _ ih ih' => exact ih.trans ih'

theorem Rose.Reordered.layered {r r' : Rose NodeData} (h : r.Reordered NodeData.isObject r') :
    r.layered.Reordered Layered.isObject r'.layered := by
  refine ⟨by rw [Rose.layered, h.label, Rose.layered], ?_⟩
  rw [Rose.layered, Rose.layered, h.label]
  split
  · exact .nil
  · rw [Layered.isObject_ofData]
    exact h.children.layered

namespace Rose

variable {r r' : Rose Layered}

theorem Reordered.without (h : r.Reordered Layered.isObject r') (key : String) :
    (r.without key).Reordered Layered.isObject (r'.without key) := by
  refine ⟨by rw [label_without, h.label, label_without], ?_⟩
  rw [children_without, children_without, h.label, label_without]
  split
  · exact h.children.filterRoots _
  · exact h.children

/-! ## Documents that differ in order -/

theorem Reordered.keyed (h : r.Reordered Layered.isObject r') (hr : r.Keyed) : r'.Keyed := by
  intro shape
  rw [h.label] at shape
  exact h.children.nodup_rootKeys (hr shape)

theorem Reordered.everywhere_keyed (h : r.Reordered Layered.isObject r')
    (hr : r.Everywhere Keyed) : r'.Everywhere Keyed :=
  h.everywhere (fun _ _ => Reordered.keyed) hr

/-- A step leads to children that differ in order. -/
theorem Reordered.child? (h : r.Reordered Layered.isObject r') (hr : r.Keyed) (step : Step) :
    Option.Rel (Reordered Layered.isObject) (r.child? step) (r'.child? step) := by
  unfold Rose.child?
  rw [h.label]
  split
  · rename_i name shape
    exact h.children.findRoot? (hr shape) name
  · rename_i position shape
    exact h.children.getElem?_roots (Layered.isObject_of_ne (by simp [shape])) position
  · exact .none

/-- A place leads to nodes that differ in order. -/
theorem Reordered.at? (h : r.Reordered Layered.isObject r') (hr : r.Everywhere Keyed)
    (place : Place) :
    Option.Rel (Reordered Layered.isObject) (r.at? place) (r'.at? place) := by
  induction place generalizing r r' with
  | nil => exact .some h
  | cons step place ih =>
    have children := h.child? hr.1 step
    rw [at?_cons, at?_cons]
    generalize found : r.child? step = x, r'.child? step = x' at children
    cases children with
    | none => exact .none
    | some same =>
      obtain ⟨i, hi, -⟩ := child?_root found
      exact ih same (hr.root (List.mem_of_getElem? hi))

end Rose

/-! ## The nodes and their places -/

/-- The labels of the nodes of a forest with their places, seen from the node above. -/
def Forest.sites (parent : Shape) (position : Nat) (f : Forest Layered) : List (Place × Layered) :=
  (f.located parent position).map fun x => (x.1, x.2.label)

/-- The labels of the nodes of a document with their places. -/
def Rose.sites (r : Rose Layered) : List (Place × Layered) :=
  r.located.map fun x => (x.1, x.2.label)

theorem Forest.sites_cons (parent : Shape) (position : Nat) (l : Layered) (cs ss : Forest Layered) :
    (Forest.cons l cs ss).sites parent position =
      ([parent.step position l], l) ::
        ((cs.sites l.shape 0).map (fun x => (parent.step position l :: x.1, x.2)) ++
          ss.sites parent (position + 1)) := by
  simp [sites, located_cons, Rose.located]

/-- The nodes are at the same places; below an object a place does not tell the order. -/
theorem Forest.Reordered.sites_perm {free : Bool} {f f' : Forest Layered}
    (h : f.Reordered Layered.isObject free f') {parent : Shape}
    (hp : free = true → parent = .object) (position : Nat) :
    (f'.sites parent position).Perm (f.sites parent position) := by
  induction h generalizing parent position with
  | nil => exact .refl _
  | cons _ _ ihc ihs =>
    rw [sites_cons, sites_cons]
    exact ((ihc of_decide_eq_true 0).map _ |>.append (ihs hp (position + 1))).cons _
  | swap =>
    -- the step to an entry of an object is its key, whatever its position
    cases hp rfl
    simp only [sites_cons, Shape.step, ← List.cons_append]
    rw [← List.append_assoc, ← List.append_assoc (_ :: _)]
    exact List.perm_append_comm.append_right _
  | trans _ _ ih ih' => exact (ih' hp position).trans (ih hp position)

theorem Rose.sites_eq (r : Rose Layered) :
    r.sites = ([], r.label) :: r.children.sites r.label.shape 0 := rfl

theorem Rose.Reordered.sites_perm {r r' : Rose Layered} (h : r.Reordered Layered.isObject r') :
    r'.sites.Perm r.sites := by
  rw [sites_eq, sites_eq, h.label]
  exact (h.children.sites_perm of_decide_eq_true 0).cons _

/-! ## One layer over another -/

namespace Rose

theorem isObject_under (l u : Layered) : (l.under u).isObject = u.isObject := by
  have shape := shape_under l u
  unfold Layered.isObject
  congr 1
  rw [shape]
  split
  · rename_i upper
    simp [upper]
  · rfl

/-- Layers that differ in order, put over documents that do, give documents that do. -/
theorem Reordered.overlay {l l' u u' : Rose Layered}
    (hl : l.Reordered Layered.isObject l') (hu : u.Reordered Layered.isObject u')
    (kl : l.Everywhere Keyed) (ku : u.Everywhere Keyed) :
    (l.overlay u).Reordered Layered.isObject (l'.overlay u') := by
  refine ⟨by rw [Rose.overlay, hl.label, hu.label, Rose.overlay], ?_⟩
  unfold Rose.overlay
  dsimp only
  rw [hl.label, hu.label, isObject_under]
  by_cases both : l.label.shape = .object ∧ u.label.shape = .object
  · have lower := hl.children.findRoot? (kl.1 both.1)
    have upper := hu.children.findRoot? (ku.1 both.2)
    have lowerKeys' := hl.children.nodup_rootKeys (kl.1 both.1)
    have upperKeys' := hu.children.nodup_rootKeys (ku.1 both.2)
    rw [if_pos both, if_pos both, Layered.isObject_of_shape both.2]
    refine Forest.reordered_of_findRoot? (Forest.nodup_rootKeys_overlay (kl.1 both.1) _)
      (Forest.nodup_rootKeys_overlay lowerKeys' _) fun k => ?_
    rw [Forest.findRoot?_overlay_of_nodup (ku.1 both.2), Forest.findRoot?_overlay_of_nodup upperKeys']
    have lower := lower k
    have upper := upper k
    generalize hx : u.children.findRoot? (Layered.key · == k) = x,
      u'.children.findRoot? (Layered.key · == k) = x' at upper
    cases upper with
    | none => exact lower
    | some upper =>
      -- the induction is on the upper layer: its entry is put over what the lower layer has there
      rename_i x x'
      have smaller := Forest.size_children_lt (Forest.findRoot?_mem hx)
      have kx := ku.root (Forest.findRoot?_mem hx)
      generalize hy : l.children.findRoot? (Layered.key · == k) = y,
        l'.children.findRoot? (Layered.key · == k) = y' at lower
      cases lower with
      | none => exact .some upper
      | some lower => exact .some (lower.overlay upper (kl.root (Forest.findRoot?_mem hy)) kx)
  · rw [if_neg both, if_neg both]
    exact hu.children
termination_by u.children.size
decreasing_by exact smaller

end Rose

/-! ## Configurations that differ in order -/

/-- The trees hold the same nodes but for the order of the children of objects. -/
def Tree.SameButOrder (t t' : Tree) : Prop :=
  (t.top.map (·.data)).Reordered NodeData.isObject (t'.top.map (·.data))

/-- What an environment inherits from does not depend on the order. -/
theorem Draft.inherits_of_reordered {d d' : Draft} (h : d.Reordered NodeData.isObject d')
    (hd : (d.children.rootKeys NodeData.key).Nodup) : Draft.inherits d' = Draft.inherits d := by
  have named := h.children.findRoot? hd inheritsKey
  unfold Draft.inherits
  generalize d.children.findRoot? (·.key == inheritsKey) = x,
    d'.children.findRoot? (·.key == inheritsKey) = x' at named
  cases named with
  | none => rfl
  | some same => simp only [same.label]

namespace Configuration

/-- The configurations have the same nodes but for the order of the children of objects. -/
structure SameButOrder (c c' : Configuration) : Prop where
  default : c.default.SameButOrder c'.default
  environments : c.environments.SameButOrder c'.environments

/-- Environments that differ in order. -/
def InStep (c c' : Configuration) (h h' : Handle) : Prop :=
  ∃ r ∈ c.environments.branches, ∃ r' ∈ c'.environments.branches,
    r.label.handle = h ∧ r'.label.handle = h' ∧
      (r.map (·.data)).Reordered NodeData.isObject (r'.map (·.data))

namespace SameButOrder

variable {c c' : Configuration}

theorem symm (h : c.SameButOrder c') : c'.SameButOrder c :=
  ⟨h.default.symm, h.environments.symm⟩

variable (h : c.SameButOrder c') (unique : c.UniqueKeys)

include h unique

/-- A name is that of environments that differ in order, or of none in both. -/
theorem found (name : String) : Found (InStep c c') c.named c'.named name := by
  have looked : ∀ d : Configuration, (d.environments.top.children.map (·.data)).findRoot?
      (·.key == name) = (d.environments.branches.find? (·.label.data.key == name)).map
        (Rose.map (·.data)) := by
    intro d
    rw [Forest.findRoot?_map (p := (·.data.key == name)) fun _ => rfl, Forest.findRoot?_eq_find?]
    rfl
  have named := h.environments.children.findRoot? unique.2.data.1 name
  unfold Found
  rw [find?_named, find?_named]
  have named : Option.Rel (Rose.Reordered NodeData.isObject)
      ((c.environments.branches.find? (·.label.data.key == name)).map (Rose.map (·.data)))
      ((c'.environments.branches.find? (·.label.data.key == name)).map (Rose.map (·.data))) := by
    rw [← looked, ← looked]
    exact named
  cases hx : c.environments.branches.find? (·.label.data.key == name) <;>
    cases hx' : c'.environments.branches.find? (·.label.data.key == name) <;>
    rw [hx, hx'] at named <;> cases named
  · exact .none
  · rename_i r r' same
    exact .some ⟨r, List.mem_of_find?_eq_some hx, r', List.mem_of_find?_eq_some hx', rfl, rfl, same⟩

section Sound

variable (sound : c.environments.Sound) (sound' : c'.environments.Sound)

include sound sound'

/-- Lineages lead through environments that differ in order. -/
theorem lineage (name : String) :
    Outcome.Alike (List.Forall₂ (InStep c c')) (c.lineage name) (c'.lineage name) := by
  refine lineage_alike ?_ (h.found unique name) fun _ _ => h.found unique _
  rintro _ _ ⟨r, hr, r', hr', rfl, rfl, same⟩
  rw [inheritsOf_of_root sound hr, inheritsOf_of_root sound' hr']
  refine Draft.inherits_of_reordered same ?_
  have root : r.map (·.data) ∈ (c.environments.top.map (·.data)).children.roots := by
    rw [Rose.map, Forest.roots_map]
    exact List.mem_map_of_mem hr
  exact (unique.2.data.root root).1

/-- Merged documents differ in order. -/
theorem merged {hs hs' : List Handle} (steps : List.Forall₂ (InStep c c') hs hs') :
    (c.merged hs).Reordered Layered.isObject (c'.merged hs') := by
  have folded : ∀ base base' : Rose Layered, base.Reordered Layered.isObject base' →
      base.Everywhere Rose.Keyed →
      ((hs.map c.layer).foldl .overlay base).Reordered Layered.isObject
        ((hs'.map c'.layer).foldl .overlay base') := by
    induction steps with
    | nil => exact fun _ _ same _ => same
    | cons step _ ih =>
      intro base base' same keyed
      obtain ⟨r, hr, r', hr', rfl, rfl, layers⟩ := step
      have keyedLayer : (c.layer r.label.handle).Everywhere Rose.Keyed :=
        everywhere_layer Rose.keyed_kept fun _ => Tree.everywhere_extract unique.2.data
      have layers : (c.layer r.label.handle).Reordered Layered.isObject
          (c'.layer r'.label.handle) := by
        rw [layer_of_root sound hr, layer_of_root sound' hr']
        exact layers.layered.without inheritsKey
      exact ih _ _ (same.overlay layers keyed keyedLayer)
        (Rose.everywhere_overlay (fun _ _ => Rose.Keyed.overlay) keyed keyedLayer)
  exact folded _ _ (Rose.Reordered.layered h.default)
    (Rose.everywhere_layered (fun _ => Rose.keyed_layered) unique.1.data)

end Sound

end SameButOrder

end Configuration

end LayeredConfig
