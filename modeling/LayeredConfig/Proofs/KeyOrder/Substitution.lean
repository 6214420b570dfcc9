import LayeredConfig.Proofs.Compile.Substitution
import LayeredConfig.Proofs.KeyOrder.Layers

/-!
# The order of keys and references

In documents that differ in the order of keys a name refers to the same slot, and slots hold the same
values, so a slot reads the same whatever the order of the slots that are available
(`Substituting.SameButOrder.read`). What the documents resolve to differs in the order of keys
(`Substituting.SameButOrder.resolved`).
-/

namespace LayeredConfig

/-! ## Nodes without layers -/

theorem Layered.isObject_of_resolved {g : Slot → Except CompileError (Option Scalar)} {place : Place}
    {l : Layered} {d : NodeData} (h : l.resolved g place = .ok d) : d.isObject = l.isObject := by
  unfold resolved at h
  unfold isObject
  cases shape : l.shape with
  | object =>
    rw [shape] at h
    cases h
    rfl
  | array =>
    rw [shape] at h
    cases h
    rfl
  | scalar history =>
    rw [shape] at h
    obtain ⟨v, -, h⟩ := Outcome.bind_eq_ok.1 h
    cases v with
    | none =>
      cases h
      rfl
    | some v =>
      cases h
      cases v <;> rfl

/-- Items in the same order stay so under the keys of their positions. -/
theorem Forest.Reordered.numberItems {f f' : Forest NodeData}
    (h : f.Reordered NodeData.isObject false f') :
    (numberItems f).Reordered NodeData.isObject false (numberItems f') := by
  refine h.mapRoots ?_ rfl 0
  exact fun _ _ => rfl

/-- Where one forest resolves, so does one that differs in order, and what they give differs in
order. -/
theorem Forest.Reordered.resolved {g : Slot → Except CompileError (Option Scalar)} {free : Bool}
    {f f' : Forest Layered} (h : f.Reordered Layered.isObject free f') {parent : Shape}
    (hp : free = true → parent = .object) {place : Place} {position : Nat} {d : Forest NodeData}
    (hd : f.resolved g parent place position = .ok d) :
    ∃ d', f'.resolved g parent place position = .ok d' ∧
      d.Reordered NodeData.isObject free d' := by
  induction h generalizing parent place position d with
  | nil => exact ⟨d, hd, .refl _ _ _⟩
  | @cons free l cs cs' ss ss' _ _ ihc ihs =>
    obtain ⟨data, children, rest, hdata, hc, hs, rfl⟩ := resolved_cons_eq_ok.1 hd
    obtain ⟨children', hc', below⟩ := ihc of_decide_eq_true hc
    obtain ⟨rest', hs', after⟩ := ihs hp hs
    refine ⟨_, resolved_cons_eq_ok.2 ⟨data, children', rest', hdata, hc', hs', rfl⟩, .cons ?_ after⟩
    rw [Layered.isObject_of_resolved hdata]
    split
    · rename_i shape
      have fixed : l.isObject = false := Layered.isObject_of_ne (by simp [shape])
      rw [fixed] at below ⊢
      exact below.numberItems
    · exact below
  | swap =>
    cases hp rfl
    obtain ⟨data, children, rest, hdata, hc, hs, rfl⟩ := resolved_cons_eq_ok.1 hd
    obtain ⟨data', children', rest', hdata', hc', hs', rfl⟩ := resolved_cons_eq_ok.1 hs
    exact ⟨_, resolved_cons_eq_ok.2 ⟨data', children', _, hdata', hc',
      resolved_cons_eq_ok.2 ⟨data, children, rest', hdata, hc, hs', rfl⟩, rfl⟩, .swap⟩
  | trans _ _ ih ih' =>
    obtain ⟨d', hd', same⟩ := ih hp hd
    obtain ⟨d'', hd'', same'⟩ := ih' hp hd'
    exact ⟨d'', hd'', same.trans same'⟩

/-! ## References -/

namespace Substituting

/-- Documents that differ in order, with references to be read alike. -/
structure SameButOrder (e e' : Substituting) : Prop where
  environment : e'.environment = e.environment
  markers : e'.markers = e.markers
  document : e.document.Reordered Layered.isObject e'.document
  keyed : e.document.Everywhere Rose.Keyed

namespace SameButOrder

variable {e e' : Substituting} (h : e.SameButOrder e')

include h

theorem value? (s : Slot) : e'.value? s = e.value? s := by
  have there := h.document.at? h.keyed s.place
  unfold Substituting.value?
  revert there
  generalize e.document.at? s.place = r, e'.document.at? s.place = r'
  rintro (same | -)
  · rename_i r r'
    obtain ⟨l, cs⟩ := r
    obtain ⟨l', cs'⟩ := r'
    cases same.label
    obtain ⟨key, anchors, aliases, shape⟩ := l
    cases shape <;> rfl
  · rfl

theorem entry? (scope : Place) (name : String) :
    Option.Rel (Rose.Reordered Layered.isObject) (e.entry? scope name) (e'.entry? scope name) := by
  have there := h.document.at? h.keyed scope
  unfold Substituting.entry?
  generalize found : e.document.at? scope = r, e'.document.at? scope = r' at there
  cases there with
  | none => exact .none
  | some same =>
    exact same.child? (Rose.everywhere_of_mem_located h.keyed (Rose.mem_located_of_at? found)).1 _

/-- The nearest entry in scope is at the same place and differs in order. -/
theorem nearest? (place : Place) (name : String) :
    Option.Rel (fun x x' => x'.1 = x.1 ∧ x'.2.label = x.2.label) (e.nearest? place name)
      (e'.nearest? place name) := by
  unfold Substituting.nearest?
  induction enclosing place with
  | nil => exact .none
  | cons scope scopes ih =>
    have entry := h.entry? scope name
    rw [List.findSome?_cons, List.findSome?_cons]
    generalize e.entry? scope name = x, e'.entry? scope name = x' at entry
    cases entry with
    | none => exact ih
    | some same => exact .some ⟨rfl, same.label⟩

theorem target (s : Slot) (name : String) : e'.target s name = e.target s name := by
  have nearest := h.nearest? s.place name
  unfold Substituting.target
  generalize e.nearest? s.place name = x, e'.nearest? s.place name = x' at nearest
  cases nearest with
  | none => simp only [h.environment]
  | some same =>
    rename_i x x'
    obtain ⟨place, r⟩ := x
    obtain ⟨place', r'⟩ := x'
    obtain ⟨rfl, label⟩ := same
    have label : r'.label = r.label := label
    simp only [label, h.environment]

/-- A slot reads the same, whatever the order of the slots that are available. -/
theorem read {available available' : List Slot} (order : available.Perm available') (s : Slot) :
    e'.read available' s = e.read available s := by
  have texts : e'.referenceText available' s = e.referenceText available s := by
    funext name
    unfold referenceText
    rw [h.target s name]
    congr 1
    funext target
    cases target with
    | environment => simp only [h.environment]
    | slot next =>
      -- the target is read with its own slot no longer available, on both sides
      by_cases here : next ∈ available
      · have shorter := length_erase_lt here
        simp only [if_pos here, if_pos (order.mem_iff.1 here), read (order.erase next) next]
      · simp only [if_neg here, if_neg fun there => here (order.mem_iff.2 there), h.environment]
  rcases Scalar.string_or_other (e.value? s) with ⟨text, string⟩ | other
  · rw [read_of_string string, read_of_string ((h.value? s).trans string), texts, h.markers]
  · rw [read_of_other other, read_of_other (h.value? s ▸ other), h.value?]
termination_by available.length
decreasing_by exact shorter

theorem slots_perm : e'.document.slots.Perm e.document.slots := by
  have listed : ∀ r : Rose Layered, r.slots = r.sites.flatMap fun x => x.2.slots x.1 := by
    intro r
    rw [Rose.slots_eq, Rose.sites, List.flatMap_map]
  rw [listed, listed]
  exact h.document.sites_perm.flatMap_right _

/-- If a document resolves, so does one that differs in order, and what they give differs in order. -/
theorem resolved {draft : Draft} (hd : e.resolved = .ok draft) :
    ∃ draft', e'.resolved = .ok draft' ∧ draft.Reordered NodeData.isObject draft' := by
  obtain ⟨data, hdata, hd⟩ := Outcome.bind_eq_ok.1 hd
  obtain ⟨children, hchildren, hd⟩ := Outcome.bind_eq_ok.1 hd
  cases hd
  obtain ⟨children', hchildren', below⟩ :=
    h.document.children.resolved of_decide_eq_true hchildren
  have reads : (fun s => e'.read (e'.document.slots.erase s) s) =
      fun s => e.read (e.document.slots.erase s) s := by
    funext s
    exact h.read (h.slots_perm.symm.erase s) s
  refine ⟨⟨data, children'⟩, ?_, rfl, ?_⟩
  · unfold Substituting.resolved
    dsimp only
    rw [reads, h.document.label]
    exact Outcome.bind_eq_ok.2 ⟨data, hdata, Outcome.bind_eq_ok.2 ⟨children', hchildren', rfl⟩⟩
  · rw [Layered.isObject_of_resolved hdata]
    exact below

end SameButOrder

end Substituting

end LayeredConfig
