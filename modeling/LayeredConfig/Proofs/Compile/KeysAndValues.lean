import LayeredConfig.Proofs.Compile.CompiledTree
import LayeredConfig.Proofs.Forest.Relabelled
import LayeredConfig.Proofs.Tree.Keys

/-!
# Trees of keys and values

A `Setting` is what a node says once markers, comments and the values of lower layers are left aside:
its key, and whether it is a scalar with some value, an object or an array. The trees of a
configuration, merged layers and drafts all come down to trees of settings, so they can be compared.

The items of an array are told apart by position. `numbered` gives them the keys that say so, which in a
numbered tree they bear already (`Tree.Numbered.settings`); that is all that resolving a document does to
its settings (`settings_valued`).
-/

namespace LayeredConfig

/-- What a node holds: a value, which may be missing, or other nodes. -/
inductive Content where
  | value (value : Option Scalar)
  | object
  | array
  deriving DecidableEq, Repr

/-- A key with what it stands for. -/
structure Setting where
  key : String
  content : Content
  deriving DecidableEq, Repr

/-- What a node of a tree says. -/
def NodeData.setting (d : NodeData) : Setting where
  key := d.key
  content := match d.type with
    | .string | .boolean | .number => .value d.value
    | .object => .object
    | .array => .array

/-- A node that says nothing beside: it bears no anchor, no alias and no comment. -/
structure NodeData.Unadorned (d : NodeData) : Prop where
  anchor : d.anchor = none
  aliases : d.aliases = []
  comment : d.comment = none

instance (d : NodeData) : Decidable d.Unadorned :=
  decidable_of_iff (d.anchor = none ∧ d.aliases = [] ∧ d.comment = none)
    ⟨fun h => ⟨h.1, h.2.1, h.2.2⟩, fun h => ⟨h.anchor, h.aliases, h.comment⟩⟩

/-- What a node of merged layers says: the value of a scalar is the one put over it last. -/
def Layered.setting (l : Layered) : Setting where
  key := l.key
  content := match l.shape with
    | .scalar history => .value history.getLast?.join
    | .object => .object
    | .array => .array

/-- A tree as keys and values. -/
def Tree.settings (t : Tree) : Rose Setting := t.top.map (·.data.setting)

/-- An item of an array under the key of its position. -/
def Setting.atPosition (position : Nat) (s : Setting) : Setting := { s with key := itemKey position }

/-- The settings with the items of every array keyed by their positions. -/
def Forest.numbered : Forest Setting → Forest Setting
  | .nil => .nil
  | .cons s cs ss =>
    .cons s (if s.content = .array then cs.numbered.mapRoots Setting.atPosition else cs.numbered)
      ss.numbered

/-- The settings with the items of every array keyed by their positions. -/
def Rose.numbered (r : Rose Setting) : Rose Setting :=
  ⟨r.label, if r.label.content = .array then r.children.numbered.mapRoots Setting.atPosition
    else r.children.numbered⟩

theorem Forest.numbered_cons (s : Setting) (cs ss : Forest Setting) :
    (Forest.cons s cs ss).numbered = .ofRose (⟨s, cs⟩ : Rose Setting).numbered ++ ss.numbered := rfl

/-- Items that stand in their positions keep their keys. -/
theorem Forest.atPosition_eq_self {f : Forest Setting} {first : Nat}
    (keyed : f.rootKeys Setting.key = (List.range' first f.roots.length).map itemKey) :
    f.mapRoots Setting.atPosition first = f := by
  induction f generalizing first with
  | nil => rfl
  | cons s cs ss _ ih =>
    rw [rootKeys_cons, roots, List.length_cons, List.range'_succ, List.map_cons] at keyed
    obtain ⟨own, later⟩ := List.cons_eq_cons.1 keyed
    rw [mapRoots, ih later, Setting.atPosition, ← own]

theorem Forest.numbered_eq_self {f : Forest Setting}
    (hf : f.Everywhere fun n => n.label.content = .array →
      n.children.rootKeys Setting.key = (List.range n.children.roots.length).map itemKey) :
    f.numbered = f := by
  induction f with
  | nil => rfl
  | cons s cs ss ihc ihs =>
    obtain ⟨hs, hcs, hss⟩ := everywhere_cons.1 hf
    rw [numbered, ihc hcs, ihs hss]
    split
    · rename_i array
      rw [atPosition_eq_self (by rw [hs array, List.range_eq_range'])]
    · rfl

theorem Tree.settings_eq (t : Tree) : t.settings = (t.top.map (·.data)).map NodeData.setting :=
  (Rose.map_map NodeData.setting Entry.data t.top).symm

theorem Tree.settings_ofDrafts (drafts : Forest NodeData) :
    (Tree.ofDrafts .detached drafts).settings = ⟨⟨"", .object⟩, drafts.map NodeData.setting⟩ := by
  rw [settings_eq, map_data_ofDrafts]
  rfl

namespace NodeData

theorem content_eq_object {d : NodeData} : d.setting.content = .object ↔ d.type = .object := by
  cases h : d.type <;> simp [setting, h]

theorem content_eq_array {d : NodeData} : d.setting.content = .array ↔ d.type = .array := by
  cases h : d.type <;> simp [setting, h]

theorem content_of_scalar {d : NodeData} (scalar : d.type.isScalar) :
    d.setting.content = .value d.value := by
  cases h : d.type <;> first | (rw [h] at scalar; cases scalar; done) | simp [setting, h]

theorem setting_ofScalar (key : String) (v : Scalar) :
    (NodeData.ofScalar key v).setting = ⟨key, .value (some v)⟩ := by
  cases v <;> rfl

end NodeData

/-- Numbering changes nothing where every array has its items keyed by their positions. -/
theorem Tree.Numbered.settings {t : Tree} (ht : t.Numbered) : t.settings.numbered = t.settings := by
  have keyed : t.settings.Everywhere fun n => n.label.content = .array →
      n.children.rootKeys Setting.key = (List.range n.children.roots.length).map itemKey := by
    refine Rose.everywhere_map.2 (ht.mono fun n hn array => ?_)
    have type : n.label.data.type = .array := NodeData.content_eq_array.1 array
    show ((n.children.map (·.data.setting)).rootKeys Setting.key) = _
    rw [Rose.map, Forest.roots_map, List.length_map, ← hn type, Forest.rootKeys_eq_map_rootLabels,
      Forest.rootKeys_eq_map_rootLabels, Forest.rootLabels_map, List.map_map]
    rfl
  have children : t.settings.children.numbered = t.settings.children := Forest.numbered_eq_self keyed.2
  unfold Rose.numbered
  rw [children]
  split
  · rename_i array
    rw [Forest.atPosition_eq_self (by rw [keyed.1 array, List.range_eq_range'])]
  · rfl

namespace Layered

theorem content_eq_object {l : Layered} : l.setting.content = .object ↔ l.shape = .object := by
  cases h : l.shape <;> simp [setting, h]

theorem content_eq_array {l : Layered} : l.setting.content = .array ↔ l.shape = .array := by
  cases h : l.shape <;> simp [setting, h]

theorem setting_ofData (d : NodeData) : (Layered.ofData d).setting = d.setting := by
  cases h : d.type <;> simp [Layered.ofData, Layered.setting, NodeData.setting, h]

end Layered

/-! ## What a document resolves to -/

section Valued

variable {value : Slot → Option Scalar}

theorem Layered.setting_valued {place : Place} {l : Layered}
    (h : ∀ history, l.shape = .scalar history →
      value ⟨place, history.length - 1⟩ = history.getLast?.join) :
    (l.valued value place).setting = l.setting := by
  unfold valued Layered.setting
  cases shape : l.shape with
  | object => rfl
  | array => rfl
  | scalar history =>
    simp only [h history shape]
    cases history.getLast?.join with
    | none => rfl
    | some v => exact NodeData.setting_ofScalar l.key v

theorem map_setting_numberItems (f : Forest NodeData) :
    (numberItems f).map NodeData.setting = (f.map NodeData.setting).mapRoots Setting.atPosition := by
  have keyed : ∀ position (d : NodeData), d.setting.atPosition position =
      NodeData.setting { d with key := itemKey position } := fun _ _ => rfl
  exact (Forest.mapRoots_map keyed f 0).symm

/-- Where the last slot of every scalar reads as the last value, resolving keeps what the nodes say, and
numbers the items. -/
theorem Forest.settings_valued {f : Forest Layered} {parent : Shape} {place : Place} {position : Nat}
    (h : ∀ x ∈ f.located parent position, ∀ history, x.2.label.shape = .scalar history →
      value ⟨place ++ x.1, history.length - 1⟩ = history.getLast?.join) :
    (f.valued value parent place position).map NodeData.setting =
      (f.map Layered.setting).numbered := by
  induction f generalizing parent place position with
  | nil => rfl
  | cons l cs ss ihc ihs =>
    rw [located_cons] at h
    have own : (l.valued value (place ++ [parent.step position l])).setting = l.setting :=
      Layered.setting_valued (h ([parent.step position l], ⟨l, cs⟩)
        (List.mem_append_left _ (List.mem_map.2 ⟨_, Rose.mem_located_nil.2 rfl, rfl⟩)))
    have below : (cs.valued value l.shape (place ++ [parent.step position l]) 0).map
        NodeData.setting = (cs.map Layered.setting).numbered :=
      ihc fun x hx => by
        have hx := h (parent.step position l :: x.1, x.2)
          (List.mem_append_left _ (List.mem_map.2 ⟨x, List.mem_cons_of_mem _ hx, rfl⟩))
        rwa [List.append_cons] at hx
    have after := ihs fun x hx => h x (List.mem_append_right _ hx)
    rw [valued, map, map, numbered, own, after]
    simp only [Layered.content_eq_array]
    split
    · rw [map_setting_numberItems, below]
    · rw [below]

theorem Layered.unadorned_valued (place : Place) (l : Layered) : (l.valued value place).Unadorned := by
  unfold valued
  cases l.shape with
  | object => exact ⟨rfl, rfl, rfl⟩
  | array => exact ⟨rfl, rfl, rfl⟩
  | scalar history =>
    dsimp only
    cases value ⟨place, history.length - 1⟩ <;> exact ⟨rfl, rfl, rfl⟩

theorem everywhere_unadorned_numberItems {f : Forest NodeData}
    (hf : f.Everywhere fun n => n.label.Unadorned) :
    (numberItems f).Everywhere fun n => n.label.Unadorned := by
  have shallow : f.Everywhere (Shallow fun (d : NodeData) _ => d.Unadorned) := hf
  refine shallow.mapRoots ?_ 0
  exact fun _ _ _ h => ⟨h.anchor, h.aliases, h.comment⟩

/-- Nothing is left of markers and comments. -/
theorem Forest.unadorned_valued (f : Forest Layered) (parent : Shape) (place : Place)
    (position : Nat) :
    (f.valued value parent place position).Everywhere fun n => n.label.Unadorned := by
  induction f generalizing parent place position with
  | nil => exact everywhere_nil
  | cons l cs ss ihc ihs =>
    refine everywhere_cons.2 ⟨Layered.unadorned_valued _ l, ?_, ihs parent place (position + 1)⟩
    split
    · exact everywhere_unadorned_numberItems (ihc l.shape _ 0)
    · exact ihc l.shape _ 0

end Valued

/-! ## Single layers -/

/-- Where scalars have no children, a layer says what its tree says. -/
theorem Forest.settings_layered {f : Forest NodeData}
    (hf : f.Everywhere fun n => n.label.type.isScalar → n.children = .nil) :
    f.layered.map Layered.setting = f.map NodeData.setting := by
  induction f with
  | nil => rfl
  | cons d cs ss ihc ihs =>
    obtain ⟨hd, hcs, hss⟩ := everywhere_cons.1 hf
    rw [layered, map, map, Layered.setting_ofData, ihs hss]
    split
    · rename_i scalar
      rw [show cs = .nil from hd scalar]
      rfl
    · rw [ihc hcs]

theorem Rose.settings_layered {r : Rose NodeData}
    (hr : r.Everywhere fun n => n.label.type.isScalar → n.children = .nil) :
    r.layered.map Layered.setting = r.map NodeData.setting := by
  unfold layered map
  rw [Layered.setting_ofData]
  split
  · rename_i scalar
    rw [show r.children = .nil from hr.1 scalar]
    rfl
  · rw [Forest.settings_layered hr.2]

end LayeredConfig
