import LayeredConfig.Proofs.Tree.Numbering
import LayeredConfig.Proofs.Tree.Types

/-!
# Tidy nodes

A node is tidy over its children when their keys are distinct, the positions if it is an array, and it
holds what its type says. Each is a property of a node and its children, so all three are shown at once of
trees that are made of drafts (`Tree.tidy_iff`).
-/

namespace LayeredConfig

/-- A node with distinct keys below it, those of an array being its positions, that holds what its type
says. -/
structure NodeData.TidyOver (d : NodeData) (children : List NodeData) : Prop where
  keys : (children.map (·.key)).Nodup
  items : d.type = .array → children.map (·.key) = (List.range children.length).map itemKey
  typed : d.TypedOver children

theorem nodup_itemKeys (count : Nat) : ((List.range count).map itemKey).Nodup :=
  List.nodup_range.map itemKey_injective

namespace NodeData.TidyOver

variable {d : NodeData} {children : List NodeData}

/-- A scalar is tidy over no children. -/
theorem of_leaf (typed : ∀ v ∈ d.value, v.valueType = d.type) (scalar : d.type.isScalar) :
    d.TidyOver [] where
  keys := List.nodup_nil
  items _ := rfl
  typed := by
    unfold TypedOver ValueType.isContainer
    rw [scalar, Bool.not_true, if_neg Bool.false_ne_true]
    exact ⟨rfl, typed⟩

theorem of_object (keys : (children.map (·.key)).Nodup) (object : d.type = .object)
    (empty : d.value = none) : d.TidyOver children where
  keys := keys
  items array := nomatch object.symm.trans array
  typed := by
    unfold TypedOver
    rw [object]
    exact empty

theorem of_array (items : children.map (·.key) = (List.range children.length).map itemKey)
    (array : d.type = .array) (empty : d.value = none) : d.TidyOver children where
  keys := items ▸ nodup_itemKeys _
  items _ := items
  typed := by
    unfold TypedOver
    rw [array]
    exact empty

/-- Only type and value of the node matter. -/
theorem congr (h : d.TidyOver children) {d' : NodeData} (type : d'.type = d.type)
    (value : d'.value = d.value) : d'.TidyOver children where
  keys := h.keys
  items array := h.items (type ▸ array)
  typed := by
    have typed := h.typed
    unfold TypedOver at typed ⊢
    rwa [type, value]

end NodeData.TidyOver

theorem map_key_numberItems (f : Forest NodeData) :
    (numberItems f).rootLabels.map (·.key) =
      (List.range (numberItems f).rootLabels.length).map itemKey := by
  rw [numberItems, Forest.rootLabels_mapRoots]
  refine List.ext_getElem (by simp) fun i _ _ => ?_
  simp

/-- What is asked of a tidy node, as it is said of trees. -/
theorem Rose.shallow_tidyOver_iff {n : Draft} : Shallow NodeData.TidyOver n ↔
    (n.children.rootKeys NodeData.key).Nodup ∧
      (n.label.type = .array →
        n.children.rootKeys NodeData.key = (List.range n.children.roots.length).map itemKey) ∧
      n.WellTyped := by
  have count : n.children.rootLabels.length = n.children.roots.length := by
    rw [Forest.rootLabels_eq_map_roots, List.length_map]
  rw [Forest.rootKeys_eq_map_rootLabels, wellTyped_iff_shallow, ← count]
  exact ⟨fun h => ⟨h.keys, h.items, h.typed⟩, fun ⟨keys, items, typed⟩ => ⟨keys, items, typed⟩⟩

namespace Tree

variable {t : Tree}

theorem numbered_iff_data : t.Numbered ↔
    (t.top.map (·.data)).Everywhere fun n => n.label.type = .array →
      n.children.rootKeys NodeData.key = (List.range n.children.roots.length).map itemKey := by
  have count (n : Rose Entry) : (n.map (·.data)).children.roots.length = n.children.roots.length := by
    rw [Rose.map, Forest.roots_map, List.length_map]
  rw [Rose.everywhere_map]
  simp only [Rose.rootKeys_map_data, count]
  rfl

/-- Every node of a tree is tidy iff its keys are distinct, its items are numbered and all is of its
type. -/
theorem tidy_iff : (t.top.map (·.data)).Everywhere (Shallow NodeData.TidyOver) ↔
    t.UniqueKeys ∧ t.Numbered ∧ t.WellTyped := by
  rw [uniqueKeys_iff_data, numbered_iff_data, WellTyped]
  constructor
  · intro tidy
    have asked := tidy.mono fun _ => Rose.shallow_tidyOver_iff.1
    exact ⟨asked.mono fun _ h => h.1, asked.mono fun _ h => h.2.1, asked.mono fun _ h => h.2.2⟩
  · rintro ⟨keys, items, typed⟩
    exact ((keys.and items).and typed).mono fun _ h =>
      Rose.shallow_tidyOver_iff.2 ⟨h.1.1, h.1.2, h.2⟩

/-- Drafts added below the root come behind what is there. -/
theorem top_graftAll_root (t : Tree) (drafts : Forest NodeData) :
    (t.graftAll t.root drafts).1.top = ⟨t.top.label, t.top.children ++ (drafts.number t.next).1⟩ := by
  rw [graftAll, if_pos (contains_of_find? t.find?_root)]
  simp only [adjust, Rose.adjust, root, beq_self_eq_true, if_true]

/-- The keys right below the root. -/
def topKeys (t : Tree) : List String := t.top.children.rootKeys (·.data.key)

/-- A tree whose root is an object, with tidy nodes below it. The keys right below the root may repeat. -/
structure TidyBelow (t : Tree) : Prop where
  object : t.top.label.data.type = .object
  empty : t.top.label.data.value = none
  below : (t.top.children.map (·.data)).Everywhere (Shallow NodeData.TidyOver)

namespace TidyBelow

theorem numbered (h : t.TidyBelow) : t.Numbered :=
  numbered_iff_data.2 ⟨fun array => (nomatch h.object.symm.trans array),
    h.below.mono fun _ hn => (Rose.shallow_tidyOver_iff.1 hn).2.1⟩

theorem wellTyped (h : t.TidyBelow) : t.WellTyped := by
  refine ⟨?_, h.below.mono fun _ hn => (Rose.shallow_tidyOver_iff.1 hn).2.2⟩
  unfold Rose.WellTyped Rose.map
  rw [h.object]
  exact h.empty

theorem uniqueKeys_iff (h : t.TidyBelow) : t.UniqueKeys ↔ t.topKeys.Nodup := by
  rw [uniqueKeys_iff_data, topKeys, ← Rose.rootKeys_map_data]
  exact and_iff_left (h.below.mono fun _ hn => (Rose.shallow_tidyOver_iff.1 hn).1)

/-- Tidy drafts added below the root bring their keys. -/
theorem graftAll_root (h : t.TidyBelow) {drafts : Forest NodeData}
    (tidy : drafts.Everywhere (Shallow NodeData.TidyOver)) :
    (t.graftAll t.root drafts).1.TidyBelow ∧
      (t.graftAll t.root drafts).1.topKeys = t.topKeys ++ drafts.rootKeys NodeData.key := by
  have grown := t.top_graftAll_root drafts
  have same := Forest.map_data_number drafts t.next
  refine ⟨⟨by rw [grown]; exact h.object, by rw [grown]; exact h.empty, ?_⟩, ?_⟩
  · rw [grown, Forest.map_append, Forest.everywhere_append, same]
    exact ⟨h.below, tidy⟩
  · have keys : (drafts.number t.next).1.rootKeys (·.data.key) = drafts.rootKeys NodeData.key := by
      conv_rhs => rw [← same]
      simp only [Forest.rootKeys, Forest.roots_map, List.map_map]
      rfl
    rw [topKeys, grown, Forest.rootKeys_append, keys, topKeys]

end TidyBelow

end Tree

end LayeredConfig
