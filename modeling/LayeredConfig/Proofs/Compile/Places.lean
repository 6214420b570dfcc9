import LayeredConfig.Compile.Expansion
import LayeredConfig.Compile.Substitution
import LayeredConfig.Proofs.Forest.Everywhere

/-!
# Nodes and their places

`located` lists the nodes of a document with their places, in document order. In a document whose
objects have one entry of a key at most, a place leads to the node it is listed with
(`at?_of_mem_located`, `mem_located_of_at?`); anchors and slots are those of the nodes listed
(`mem_anchorPlaces`, `mem_slots`).

Where keys repeat, a place may lead to several nodes. `sole?` is the node that a place leads to when
every step of the way has one child to go to.
-/

namespace LayeredConfig

namespace Rose

/-- An object has one entry of a key at most. -/
def Keyed (n : Rose Layered) : Prop :=
  n.label.shape = .object → (n.children.rootKeys Layered.key).Nodup

/-- A scalar has a value of some layer, and nothing is below it. -/
def ScalarLeaf (n : Rose Layered) : Prop :=
  ∀ history, n.label.shape = .scalar history → history ≠ [] ∧ n.children = .nil

end Rose

/-! ## Listing the nodes -/

/-- The nodes of a forest with their places, seen from the node above. -/
def Forest.located (parent : Shape) (position : Nat) :
    Forest Layered → List (Place × Rose Layered)
  | .nil => []
  | .cons l cs ss =>
    let step := parent.step position l
    ([step], ⟨l, cs⟩) :: (cs.located l.shape 0).map (fun x => (step :: x.1, x.2)) ++
      ss.located parent (position + 1)

/-- The nodes of a document with their places. -/
def Rose.located (r : Rose Layered) : List (Place × Rose Layered) :=
  ([], r) :: r.children.located r.label.shape 0

theorem Forest.located_cons (parent : Shape) (position : Nat) (l : Layered)
    (cs ss : Forest Layered) :
    (Forest.cons l cs ss).located parent position =
      ((⟨l, cs⟩ : Rose Layered).located.map fun x => (parent.step position l :: x.1, x.2)) ++
        ss.located parent (position + 1) := rfl

/-- Below a node, a place starts with the step to one of the children. -/
theorem Forest.mem_located {parent : Shape} {position : Nat} {f : Forest Layered} {place : Place}
    {n : Rose Layered} :
    (place, n) ∈ f.located parent position ↔
      ∃ i c rest, f.roots[i]? = some c ∧ (rest, n) ∈ c.located ∧
        place = parent.step (position + i) c.label :: rest := by
  induction f generalizing position with
  | nil => simp [located, roots]
  | cons l cs ss _ ih =>
    rw [located_cons, List.mem_append, ih, List.mem_map]
    constructor
    · rintro (⟨⟨rest, m⟩, hm, same⟩ | ⟨i, c, rest, hc, hn, rfl⟩)
      · cases same
        exact ⟨0, ⟨l, cs⟩, rest, rfl, hm, rfl⟩
      · refine ⟨i + 1, c, rest, hc, hn, ?_⟩
        rw [Nat.add_assoc, Nat.add_comm 1 i]
    · rintro ⟨i, c, rest, hc, hn, rfl⟩
      cases i with
      | zero =>
        cases hc
        exact Or.inl ⟨(rest, n), hn, rfl⟩
      | succ i =>
        refine Or.inr ⟨i, c, rest, hc, hn, ?_⟩
        rw [Nat.add_assoc, Nat.add_comm 1 i]

theorem Rose.mem_located_nil {r n : Rose Layered} : ([], n) ∈ r.located ↔ n = r := by
  rw [located, List.mem_cons, Forest.mem_located]
  simp

theorem Rose.mem_located_cons {r n : Rose Layered} {step : Step} {place : Place} :
    (step :: place, n) ∈ r.located ↔
      ∃ i c, r.children.roots[i]? = some c ∧ step = r.label.shape.step i c.label ∧
        (place, n) ∈ c.located := by
  rw [located, List.mem_cons, Forest.mem_located]
  constructor
  · rintro (h | ⟨i, c, rest, hc, hn, same⟩)
    · cases h
    · cases same
      exact ⟨i, c, hc, by rw [Nat.zero_add], hn⟩
  · rintro ⟨i, c, hc, rfl, hn⟩
    exact Or.inr ⟨i, c, place, hc, hn, by rw [Nat.zero_add]⟩

theorem Rose.everywhere_of_mem_located {P : Rose Layered → Prop} {r n : Rose Layered}
    {place : Place} (hr : r.Everywhere P) (h : (place, n) ∈ r.located) : n.Everywhere P := by
  induction place generalizing r with
  | nil =>
    rw [mem_located_nil.1 h]
    exact hr
  | cons step place ih =>
    obtain ⟨i, c, hc, -, hn⟩ := mem_located_cons.1 h
    exact ih (hr.root (List.mem_of_getElem? hc)) hn

/-! ## Going to a place -/

theorem Rose.child?_of_object {r : Rose Layered} (h : r.label.shape = .object) (name : String) :
    r.child? (.key name) = r.children.findRoot? (Layered.key · == name) := by
  simp only [child?, h]

theorem Rose.child?_of_array {r : Rose Layered} (h : r.label.shape = .array) (position : Nat) :
    r.child? (.item position) = r.children.roots[position]? := by
  simp only [child?, h]

theorem Rose.shape_of_child?_key {r c : Rose Layered} {name : String}
    (h : r.child? (.key name) = some c) : r.label.shape = .object := by
  unfold child? at h
  split at h
  · assumption
  · rename_i same
    cases same
  · cases h

theorem Rose.child?_root {r c : Rose Layered} {step : Step} (h : r.child? step = some c) :
    ∃ i, r.children.roots[i]? = some c ∧ step = r.label.shape.step i c.label := by
  unfold child? at h
  split at h
  · rename_i name shape
    obtain ⟨i, hi⟩ := List.mem_iff_getElem?.1 (Forest.findRoot?_mem h)
    have hkey : c.label.key = name := Forest.findRoot?_key h
    refine ⟨i, hi, ?_⟩
    rw [shape, ← hkey]
    rfl
  · rename_i position shape
    exact ⟨position, h, by rw [shape]; rfl⟩
  · cases h

theorem Rose.child?_of_root {r c : Rose Layered} {i : Nat} (hk : r.Keyed) (hs : r.ScalarLeaf)
    (hc : r.children.roots[i]? = some c) : r.child? (r.label.shape.step i c.label) = some c := by
  unfold child?
  cases shape : r.label.shape with
  | scalar history =>
    rw [(hs history shape).2] at hc
    cases hc
  | object => exact Forest.findRoot?_of_mem (hk shape) (List.mem_of_getElem? hc)
  | array => exact hc

theorem Rose.at?_cons (r : Rose Layered) (step : Step) (place : Place) :
    r.at? (step :: place) = (r.child? step).bind (·.at? place) := rfl

theorem Rose.at?_append (r : Rose Layered) (front back : Place) :
    r.at? (front ++ back) = (r.at? front).bind (·.at? back) := by
  induction front generalizing r with
  | nil => rfl
  | cons step front ih =>
    rw [List.cons_append, at?_cons, at?_cons]
    cases r.child? step with
    | none => rfl
    | some c => exact ih c

/-- The node that a place leads to is listed with it. -/
theorem Rose.mem_located_of_at? {r n : Rose Layered} {place : Place}
    (h : r.at? place = some n) : (place, n) ∈ r.located := by
  induction place generalizing r with
  | nil => exact mem_located_nil.2 (Option.some.inj h).symm
  | cons step place ih =>
    obtain ⟨c, hc, hn⟩ := Option.bind_eq_some_iff.1 h
    obtain ⟨i, hi, hstep⟩ := child?_root hc
    exact mem_located_cons.2 ⟨i, c, hi, hstep, ih hn⟩

/-- Where keys do not repeat, a place leads to the node it is listed with. -/
theorem Rose.at?_of_mem_located {r n : Rose Layered} {place : Place} (hk : r.Everywhere Keyed)
    (hs : r.Everywhere ScalarLeaf) (h : (place, n) ∈ r.located) : r.at? place = some n := by
  induction place generalizing r with
  | nil => rw [mem_located_nil.1 h, at?]
  | cons step place ih =>
    obtain ⟨i, c, hc, rfl, hn⟩ := mem_located_cons.1 h
    rw [at?_cons, child?_of_root hk.1 hs.1 hc]
    exact ih (hk.root (List.mem_of_getElem? hc)) (hs.root (List.mem_of_getElem? hc)) hn

/-! ## Anchors and slots -/

theorem Forest.anchorPlaces_eq (parent : Shape) (place : Place) (position : Nat)
    (f : Forest Layered) :
    f.anchorPlaces parent place position =
      (f.located parent position).flatMap fun x =>
        x.2.label.anchors.map (·, .place (place ++ x.1)) := by
  induction f generalizing parent place position with
  | nil => rfl
  | cons l cs ss ihc ihs =>
    rw [anchorPlaces, ihc, ihs, located_cons, Rose.located, List.flatMap_append, List.flatMap_map,
      List.flatMap_cons]
    simp only [List.append_assoc, List.cons_append, List.nil_append]

theorem Rose.anchorPlaces_eq (r : Rose Layered) :
    r.anchorPlaces = r.located.flatMap fun x => x.2.label.anchors.map (·, .place x.1) := by
  rw [anchorPlaces, Forest.anchorPlaces_eq, located, List.flatMap_cons]
  rfl

/-- An anchor of a document is one of a node listed with the place. -/
theorem Rose.mem_anchorPlaces {r : Rose Layered} {name : String} {source : AnchorSource} :
    (name, source) ∈ r.anchorPlaces ↔
      ∃ place n, (place, n) ∈ r.located ∧ name ∈ n.label.anchors ∧ source = .place place := by
  rw [anchorPlaces_eq]
  simp only [List.mem_flatMap, List.mem_map, Prod.exists, Prod.mk.injEq]
  constructor
  · rintro ⟨place, n, hn, a, ha, rfl, rfl⟩
    exact ⟨place, n, hn, ha, rfl⟩
  · rintro ⟨place, n, hn, ha, rfl⟩
    exact ⟨place, n, hn, name, ha, rfl, rfl⟩

/-- The slots of a node at a place. -/
def Layered.slots (place : Place) (l : Layered) : List Slot :=
  match l.shape with
  | .scalar history => (List.range history.length).map (⟨place, ·⟩)
  | _ => []

theorem Forest.slots_eq (parent : Shape) (place : Place) (position : Nat) (f : Forest Layered) :
    f.slots parent place position =
      (f.located parent position).flatMap fun x => x.2.label.slots (place ++ x.1) := by
  induction f generalizing parent place position with
  | nil => rfl
  | cons l cs ss ihc ihs =>
    rw [Forest.slots, ihc, ihs, located_cons, Rose.located, List.flatMap_append, List.flatMap_map,
      List.flatMap_cons]
    simp only [List.append_assoc, List.cons_append, List.nil_append]
    rfl

theorem Rose.slots_eq (r : Rose Layered) :
    r.slots = r.located.flatMap fun x => x.2.label.slots x.1 := by
  rw [slots, Forest.slots_eq, located, List.flatMap_cons]
  rfl

/-- A slot of a document is one of a scalar listed with the place. -/
theorem Rose.mem_slots {r : Rose Layered} {s : Slot} :
    s ∈ r.slots ↔ ∃ n history, (s.place, n) ∈ r.located ∧ n.label.shape = .scalar history ∧
      s.layer < history.length := by
  rw [slots_eq, List.mem_flatMap]
  constructor
  · rintro ⟨⟨place, n⟩, hn, hs⟩
    unfold Layered.slots at hs
    split at hs
    · rename_i history shape
      obtain ⟨i, hi, rfl⟩ := List.mem_map.1 hs
      exact ⟨n, history, hn, shape, List.mem_range.1 hi⟩
    · cases hs
  · rintro ⟨n, history, hn, shape, hlt⟩
    refine ⟨(s.place, n), hn, ?_⟩
    rw [Layered.slots, shape]
    exact List.mem_map.2 ⟨s.layer, List.mem_range.2 hlt, rfl⟩

/-! ## Places that lead to one node only -/

/-- The children that a step leads to. -/
def Rose.childrenAt (r : Rose Layered) (step : Step) : List (Rose Layered) :=
  match r.label.shape, step with
  | .object, .key name => r.children.roots.filter (·.label.key == name)
  | .array, .item position => r.children.roots[position]?.toList
  | _, _ => []

/-- The node at a place, provided that every step of the way leads to one child only. -/
def Rose.sole? (r : Rose Layered) : Place → Option (Rose Layered)
  | [] => some r
  | step :: place =>
    match r.childrenAt step with
    | [c] => c.sole? place
    | _ => none

theorem Rose.child?_eq_head? (r : Rose Layered) (step : Step) :
    r.child? step = (r.childrenAt step).head? := by
  unfold child? childrenAt
  cases r.label.shape with
  | scalar history => rfl
  | object =>
    cases step with
    | key name => exact (Forest.findRoot?_eq_find? _ _).trans List.head?_filter.symm
    | item position => rfl
  | array =>
    cases step with
    | key name => rfl
    | item position => exact Option.head?_toList.symm

theorem Rose.sole?_cons {r n : Rose Layered} {step : Step} {place : Place} :
    r.sole? (step :: place) = some n ↔ ∃ c, r.childrenAt step = [c] ∧ c.sole? place = some n := by
  rw [sole?]
  split
  · rename_i c hc
    rw [hc]
    simp
  · rename_i several
    simp only [reduceCtorEq, false_iff, not_exists, not_and]
    exact fun c hc => absurd hc (several c)

theorem Rose.at?_of_sole? {r n : Rose Layered} {place : Place} (h : r.sole? place = some n) :
    r.at? place = some n := by
  induction place generalizing r with
  | nil => exact h
  | cons step place ih =>
    obtain ⟨c, hc, hn⟩ := sole?_cons.1 h
    rw [at?_cons, child?_eq_head?, hc]
    exact ih hn

end LayeredConfig
