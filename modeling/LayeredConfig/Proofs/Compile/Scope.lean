import LayeredConfig.Proofs.Compile.StandIn
import Mathlib.Logic.Relation

/-!
# What references refer to

A reference names the entry of the nearest enclosing object that has one (`Nearest`). The target of
a name within a slot (`Names`) is the slot below if that entry is the scalar the slot belongs to,
the last slot of the entry if it is another scalar, and the environment where nothing has the name.

* `target_eq_ok` : `target` finds the targets, and no others;
* `Reached.mem_slots` : whatever is read on the way from a last value is a slot of the document.
-/

namespace LayeredConfig

/-- A place encloses those that go on from it. -/
def Place.Encloses (scope place : Place) : Prop := scope <+: place ∧ scope.length < place.length

namespace Substituting

variable {e : Substituting} {s t : Slot} {name : String}

/-- The nearest object around a place that has an entry with a name, and the entry. -/
structure Nearest (e : Substituting) (place : Place) (name : String) (scope : Place)
    (entry : Rose Layered) : Prop where
  encloses : scope.Encloses place
  entry : e.entry? scope name = some entry
  nearest : ∀ inner : Place, inner.Encloses place → scope.length < inner.length →
    e.entry? inner name = none

/-- What a name in the text of a slot refers to. -/
inductive Names (e : Substituting) (s : Slot) (name : String) : Target → Prop
  /-- The value's own key: the layer below. -/
  | below {scope : Place} {entry : Rose Layered} {history : List (Option Scalar)} {layer : Nat} :
    e.Nearest s.place name scope entry → entry.label.shape = .scalar history →
    scope ++ [.key name] = s.place → s.layer = layer + 1 → Names e s name (.slot ⟨s.place, layer⟩)
  /-- Another scalar: its last layer. -/
  | last {scope : Place} {entry : Rose Layered} {history : List (Option Scalar)} :
    e.Nearest s.place name scope entry → entry.label.shape = .scalar history →
    scope ++ [.key name] ≠ s.place →
    Names e s name (.slot ⟨scope ++ [.key name], history.length - 1⟩)
  /-- A name that nothing in scope bears. -/
  | environment : (∀ scope : Place, scope.Encloses s.place → e.entry? scope name = none) →
    name = environmentName → Names e s name .environment

/-! ## The places around a place -/

theorem mem_enclosing {scope place : Place} : scope ∈ enclosing place ↔ scope.Encloses place := by
  simp only [enclosing, List.mem_map, List.mem_reverse, List.mem_range, Place.Encloses]
  constructor
  · rintro ⟨n, hn, rfl⟩
    refine ⟨List.take_prefix n place, ?_⟩
    rw [List.length_take]
    omega
  · rintro ⟨front, shorter⟩
    exact ⟨scope.length, shorter, (List.prefix_iff_eq_take.1 front).symm⟩

/-- The places around a place are listed from the nearest on. -/
theorem pairwise_enclosing (place : Place) :
    (enclosing place).Pairwise fun near far => far.length < near.length := by
  rw [enclosing, List.pairwise_map, List.pairwise_reverse]
  refine List.Pairwise.imp_of_mem ?_ List.pairwise_lt_range
  intro far near hfar hnear lt
  have := List.mem_range.1 hnear
  rw [List.length_take, List.length_take]
  omega

theorem Nearest.unique {place scope scope' : Place} {entry entry' : Rose Layered}
    (h : e.Nearest place name scope entry) (h' : e.Nearest place name scope' entry') :
    scope = scope' ∧ entry = entry' := by
  have ordered : ∀ {scope scope' : Place} {entry entry' : Rose Layered},
      e.Nearest place name scope entry → e.Nearest place name scope' entry' →
      ¬ scope.length < scope'.length := by
    intro scope scope' entry entry' h h' lt
    have none := h.nearest scope' h'.encloses lt
    rw [h'.entry] at none
    cases none
  have same : scope = scope' := by
    have le := ordered h h'
    have ge := ordered h' h
    rw [List.prefix_iff_eq_take.1 h.encloses.1, List.prefix_iff_eq_take.1 h'.encloses.1,
      show scope.length = scope'.length by omega]
  subst same
  exact ⟨rfl, Option.some.inj (h.entry.symm.trans h'.entry)⟩

theorem nearest?_eq_none {place : Place} : e.nearest? place name = none ↔
    ∀ scope : Place, scope.Encloses place → e.entry? scope name = none := by
  rw [nearest?, List.findSome?_eq_none_iff]
  simp only [mem_enclosing, Option.map_eq_none_iff]

theorem nearest_of_nearest? {place found : Place} {entry : Rose Layered}
    (h : e.nearest? place name = some (found, entry)) :
    ∃ scope, e.Nearest place name scope entry ∧ found = scope ++ [.key name] := by
  obtain ⟨near, scope, far, split, hit, missed⟩ := List.findSome?_eq_some_iff.1 h
  obtain ⟨r, hr, same⟩ := Option.map_eq_some_iff.1 hit
  cases same
  have scopes := pairwise_enclosing place
  rw [split, List.pairwise_append] at scopes
  have listed : scope ∈ enclosing place := split ▸ List.mem_append_right _ List.mem_cons_self
  refine ⟨scope, ⟨mem_enclosing.1 listed, hr, fun inner hinner longer => ?_⟩, rfl⟩
  have hinner := mem_enclosing.2 hinner
  rw [split, List.mem_append, List.mem_cons] at hinner
  rcases hinner with hinner | rfl | hinner
  · exact Option.map_eq_none_iff.1 (missed inner hinner)
  · omega
  · have := (List.pairwise_cons.1 scopes.2.1).1 inner hinner
    omega

theorem nearest?_of_nearest {place scope : Place} {entry : Rose Layered}
    (h : e.Nearest place name scope entry) :
    e.nearest? place name = some (scope ++ [.key name], entry) := by
  cases found : e.nearest? place name with
  | none =>
    have missing := nearest?_eq_none.1 found scope h.encloses
    rw [h.entry] at missing
    cases missing
  | some x =>
    obtain ⟨scope', h', hx⟩ := nearest_of_nearest? found
    obtain ⟨rfl, rfl⟩ := h.unique h'
    rw [← hx]

/-! ## Targets -/

theorem target_eq_ok {target : Target} :
    e.target s name = .ok target ↔ e.Names s name target := by
  constructor
  · intro h
    unfold Substituting.target at h
    split at h
    · rename_i found entry hfound
      obtain ⟨scope, nearest, rfl⟩ := nearest_of_nearest? hfound
      split at h
      · rename_i history shape
        by_cases own : scope ++ [.key name] = s.place
        · rw [if_neg (not_not.2 own)] at h
          split at h
          · cases h
          · rename_i above
            cases h
            rw [own]
            exact .below nearest shape own (by omega)
        · rw [if_pos own] at h
          cases h
          exact .last nearest shape own
      · cases h
    · rename_i missing
      split at h
      · cases h
        exact .environment (nearest?_eq_none.1 missing) ‹_›
      · cases h
  · intro h
    unfold Substituting.target
    cases h with
    | below nearest shape own above =>
      rw [nearest?_of_nearest nearest]
      simp only [shape]
      rw [if_neg (not_not.2 own), if_neg (by omega), above, own, Nat.add_sub_cancel]
    | last nearest shape other =>
      rw [nearest?_of_nearest nearest]
      simp only [shape]
      rw [if_pos other]
    | environment missing same =>
      rw [nearest?_eq_none.2 missing, if_pos same]

theorem Names.unique {target target' : Target} (h : e.Names s name target)
    (h' : e.Names s name target') : target = target' := by
  have h := target_eq_ok.2 h
  rw [target_eq_ok.2 h'] at h
  exact (Except.ok.inj h).symm

/-! ## Slots that are read -/

/-- The text of a slot has a reference to another slot. -/
def Refers (e : Substituting) (s t : Slot) : Prop :=
  ∃ text name, e.value? s = some (.string text) ∧ name ∈ e.markers.references text ∧
    e.Names s name (.slot t)

/-- The last slot of a scalar of the document, or one that a slot reached refers to. -/
inductive Reached (e : Substituting) : Slot → Prop
  | last {place : Place} {n : Rose Layered} {history : List (Option Scalar)} :
    (place, n) ∈ e.document.located → n.label.shape = .scalar history →
    Reached e ⟨place, history.length - 1⟩
  | refers {s t : Slot} : Reached e s → e.Refers s t → Reached e t

theorem value?_of_scalar {place : Place} {n : Rose Layered} {history : List (Option Scalar)}
    (hn : e.document.at? place = some n) (shape : n.label.shape = .scalar history) (layer : Nat) :
    e.value? ⟨place, layer⟩ = (history[layer]?).join := by
  obtain ⟨⟨key, anchors, aliases, nshape⟩, children⟩ := n
  cases shape
  rw [value?, hn]

/-- The last value of a scalar. -/
theorem value?_last {place : Place} {n : Rose Layered} {history : List (Option Scalar)}
    (hn : e.document.at? place = some n) (shape : n.label.shape = .scalar history) :
    e.value? ⟨place, history.length - 1⟩ = history.getLast?.join := by
  rw [value?_of_scalar hn shape, List.getLast?_eq_getElem?]

theorem mem_located_of_entry_eq {scope : Place} {entry : Rose Layered}
    (h : e.entry? scope name = some entry) :
    (scope ++ [.key name], entry) ∈ e.document.located := by
  apply Rose.mem_located_of_at?
  rw [Rose.at?_append]
  obtain ⟨object, hobject, hentry⟩ := Option.bind_eq_some_iff.1 h
  rw [hobject, Option.bind_some, Rose.at?_cons, hentry]
  rfl

variable (settled : e.document.Everywhere Rose.Settled)
include settled

theorem last_mem_slots {place : Place} {n : Rose Layered} {history : List (Option Scalar)}
    (hn : (place, n) ∈ e.document.located) (shape : n.label.shape = .scalar history) :
    (⟨place, history.length - 1⟩ : Slot) ∈ e.document.slots := by
  have nonempty : history ≠ [] :=
    ((Rose.everywhere_of_mem_located settled hn).1.scalarLeaf history shape).1
  have := List.length_pos_iff.2 nonempty
  exact Rose.mem_slots.2 ⟨n, history, hn, shape, Nat.sub_lt this Nat.one_pos⟩

theorem Refers.mem_slots (hs : s ∈ e.document.slots) (h : e.Refers s t) :
    t ∈ e.document.slots := by
  obtain ⟨text, name, -, -, names⟩ := h
  cases names with
  | last nearest shape => exact last_mem_slots settled (mem_located_of_entry_eq nearest.entry) shape
  | below nearest shape own above =>
    obtain ⟨n, history, hn, shape, lt⟩ := Rose.mem_slots.1 hs
    rw [above] at lt
    exact Rose.mem_slots.2 ⟨n, history, hn, shape, Nat.lt_of_succ_lt lt⟩

theorem Reached.mem_slots (h : e.Reached s) : s ∈ e.document.slots := by
  induction h with
  | last hn shape => exact last_mem_slots settled hn shape
  | refers _ h ih => exact h.mem_slots settled ih

theorem mem_slots_of_transGen (hs : s ∈ e.document.slots) (h : Relation.TransGen e.Refers s t) :
    t ∈ e.document.slots := by
  induction h with
  | single h => exact h.mem_slots settled hs
  | tail _ h ih => exact h.mem_slots settled ih

end Substituting

end LayeredConfig
