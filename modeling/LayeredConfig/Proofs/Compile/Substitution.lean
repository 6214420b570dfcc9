import LayeredConfig.Proofs.Compile.Expansion
import LayeredConfig.Proofs.Compile.Scope
import LayeredConfig.Proofs.Reference

/-!
# Substitution of references is exact

A `Reading` gives each slot reached a value: the one it has, with every reference replaced by the
text of its target. A document is resolved iff every reference reached has a target and no chain of
references leads back to where it began (`Resolvable`); it is then what any reading of it says.

* `exists_read` : slots are read if the document is resolvable, because what is reached from a slot
  is still available;
* `not_transGen_of_read`, `exists_target_of_read` : a slot that is read leads to no cycle and to no
  reference without a target;
* `read_unique` : what a slot reads as does not depend on the slots available.

Main statement: `resolved_exact`.
-/

namespace LayeredConfig

/-! ## Values -/

theorem Scalar.string_or_other (v : Option Scalar) :
    (∃ text, v = some (.string text)) ∨ ∀ text, v ≠ some (.string text) := by
  rcases v with - | text | b | n
  · exact Or.inr fun _ h => by cases h
  · exact Or.inl ⟨text, rfl⟩
  · exact Or.inr fun _ h => by cases h
  · exact Or.inr fun _ h => by cases h

/-- The value has no references. -/
def Markers.Plain (m : Markers) (v : Option Scalar) : Prop :=
  ∀ text, v = some (.string text) → m.references text = []

instance (m : Markers) (v : Option Scalar) : Decidable (m.Plain v) :=
  match v with
  | some (.string text) => decidable_of_iff (m.references text = []) (by simp [Markers.Plain])
  | none | some (.boolean _) | some (.number _) => isTrue nofun

/-- The text that stands for a target, `value` giving what slots read as. -/
def Target.text (environment : String) (value : Slot → Option Scalar) : Target → String
  | .slot s => Substituting.display (value s)
  | .environment => environment

namespace Substituting

variable {e : Substituting} {available available' : List Slot} {s t : Slot} {name text : String}
  {v w : Option Scalar} {value : Slot → Option Scalar}

/-- The value of a slot is its own with each reference replaced by the text of its target. -/
structure Substituted (e : Substituting) (value : Slot → Option Scalar) (s : Slot) : Prop where
  string : ∀ text, e.value? s = some (.string text) → ∃ f : String → String,
    (∀ name ∈ e.markers.references text, ∃ target, e.Names s name target ∧
      f name = target.text e.environment value) ∧
    value s = some (.string (e.markers.filled text f))
  other : (∀ text, e.value? s ≠ some (.string text)) → value s = e.value? s

/-- Values of the slots reached in which every reference is replaced. -/
def Reading (e : Substituting) (value : Slot → Option Scalar) : Prop :=
  ∀ s, e.Reached s → e.Substituted value s

/-- The text that stands for a name in a slot. -/
def referent (e : Substituting) (value : Slot → Option Scalar) (s : Slot) (name : String) :
    String :=
  match e.target s name with
  | .ok target => target.text e.environment value
  | .error _ => ""

theorem Substituted.eq_filled (h : e.Substituted value s) (hs : e.value? s = some (.string text)) :
    value s = some (.string (e.markers.filled text (e.referent value s))) := by
  obtain ⟨f, hf, same⟩ := h.string text hs
  have agree : ∀ name ∈ e.markers.references text, f name = e.referent value s name := by
    intro name hname
    obtain ⟨target, names, fn⟩ := hf name hname
    rw [fn, referent, target_eq_ok.2 names]
  rw [same, Markers.filled_congr agree]

/-- A value without references stays as it is. -/
theorem Substituted.eq_value? (h : e.Substituted value s)
    (plain : e.markers.Plain (e.value? s)) :
    value s = e.value? s := by
  rcases Scalar.string_or_other (e.value? s) with ⟨text, string⟩ | other
  · rw [h.eq_filled string, Markers.filled_of_references_eq_nil (plain text string), string]
  · exact h.other other

/-- Every reference reached has a target, and no chain of references is cyclic. -/
structure Resolvable (e : Substituting) : Prop where
  target : ∀ s text name, e.Reached s → e.value? s = some (.string text) →
    name ∈ e.markers.references text → ∃ target, e.Names s name target
  acyclic : ∀ s, e.Reached s → ¬ Relation.TransGen e.Refers s s

/-! ## Reading one slot -/

/-- The text of a reference in a slot, its target being read from the slots available. -/
def referenceText (e : Substituting) (available : List Slot) (s : Slot) (name : String) :
    Except CompileError String := do
  match ← e.target s name with
  | .environment => pure e.environment
  | .slot next =>
    if next ∈ available then
      let value ← e.read (available.erase next) next
      pure (display value)
    else throw (.variableCycle name (s.place.text e.environment))

theorem read_of_string (h : e.value? s = some (.string text)) :
    e.read available s = (do
      let text ← e.markers.substitute text (e.referenceText available s)
      pure (some (.string text))) := by
  rw [read, h]
  rfl

theorem read_of_other (h : ∀ text, e.value? s ≠ some (.string text)) :
    e.read available s = .ok (e.value? s) := by
  rw [read]
  split
  · exact absurd ‹_› (h _)
  · rfl

theorem referenceText_eq_ok {x : String} :
    e.referenceText available s name = .ok x ↔
      (e.Names s name .environment ∧ x = e.environment) ∨
      ∃ next v, e.Names s name (.slot next) ∧ next ∈ available ∧
        e.read (available.erase next) next = .ok v ∧ x = display v := by
  simp only [← target_eq_ok, referenceText, Outcome.bind_eq_ok]
  constructor
  · rintro ⟨target, htarget, h⟩
    cases target with
    | environment => exact Or.inl ⟨htarget, (Outcome.pure_eq_ok.1 h).symm⟩
    | slot next =>
      simp only at h
      split at h
      · rename_i here
        obtain ⟨v, hv, h⟩ := Outcome.bind_eq_ok.1 h
        exact Or.inr ⟨next, v, htarget, here, hv, (Outcome.pure_eq_ok.1 h).symm⟩
      · cases h
  · rintro (⟨htarget, rfl⟩ | ⟨next, v, htarget, here, hv, rfl⟩)
    · exact ⟨_, htarget, rfl⟩
    · refine ⟨_, htarget, ?_⟩
      simp only [if_pos here, hv]
      rfl

theorem read_string_eq_ok (h : e.value? s = some (.string text)) :
    e.read available s = .ok v ↔ ∃ f : String → String,
      (∀ name ∈ e.markers.references text, e.referenceText available s name = .ok (f name)) ∧
      v = some (.string (e.markers.filled text f)) := by
  rw [read_of_string h, Outcome.bind_eq_ok]
  constructor
  · rintro ⟨out, hout, hv⟩
    have each : ∀ name ∈ e.markers.references text,
        ∃ x, e.referenceText available s name = .ok x := fun name hname =>
      Markers.exists_of_substitute hout hname
    choose! f hf using each
    rw [Markers.substitute_eq_filled hf] at hout
    cases hout
    exact ⟨f, hf, (Outcome.pure_eq_ok.1 hv).symm⟩
  · rintro ⟨f, hf, rfl⟩
    exact ⟨_, Markers.substitute_eq_filled hf, rfl⟩

/-! ## Chains of references -/

/-- A slot that is read leads to slots that are read, with fewer available. -/
theorem exists_read_of_refers (h : e.read available s = .ok v) (ht : e.Refers s t) :
    t ∈ available ∧ ∃ w, e.read (available.erase t) t = .ok w := by
  obtain ⟨text, name, hs, hname, names⟩ := ht
  obtain ⟨f, hf, -⟩ := (read_string_eq_ok hs).1 h
  rcases referenceText_eq_ok.1 (hf name hname) with ⟨names', -⟩ | ⟨next, w, names', here, hw, -⟩
  · cases names.unique names'
  · cases names.unique names'
    exact ⟨here, w, hw⟩

theorem exists_read_of_transGen (h : e.read available s = .ok v)
    (ht : Relation.TransGen e.Refers s t) :
    ∃ fewer w, fewer.length < available.length ∧ e.read fewer t = .ok w := by
  induction ht with
  | single ht =>
    obtain ⟨here, w, hw⟩ := exists_read_of_refers h ht
    exact ⟨_, w, length_erase_lt here, hw⟩
  | tail _ ht ih =>
    obtain ⟨fewer, w, lt, hw⟩ := ih
    obtain ⟨here, w', hw'⟩ := exists_read_of_refers hw ht
    exact ⟨_, w', Nat.lt_trans (length_erase_lt here) lt, hw'⟩

/-- No chain of references leads from a slot that is read back to it. -/
theorem not_transGen_of_read {available : List Slot} {v : Option Scalar}
    (h : e.read available s = .ok v) : ¬ Relation.TransGen e.Refers s s := by
  intro cycle
  obtain ⟨fewer, w, lt, hw⟩ := exists_read_of_transGen h cycle
  exact not_transGen_of_read hw cycle
termination_by available.length

theorem exists_target_of_read (h : e.read available s = .ok v)
    (hs : e.value? s = some (.string text)) (hname : name ∈ e.markers.references text) :
    ∃ target, e.Names s name target := by
  obtain ⟨f, hf, -⟩ := (read_string_eq_ok hs).1 h
  rcases referenceText_eq_ok.1 (hf name hname) with ⟨names, -⟩ | ⟨next, -, names, -⟩
  · exact ⟨_, names⟩
  · exact ⟨_, names⟩

/-- In a resolvable document a slot is read as long as every slot it leads to is available. -/
theorem exists_read (he : e.Resolvable) {available : List Slot} {s : Slot} (hs : e.Reached s)
    (ha : ∀ t, Relation.TransGen e.Refers s t → t ∈ available) :
    ∃ v, e.read available s = .ok v := by
  rcases Scalar.string_or_other (e.value? s) with ⟨text, string⟩ | other
  · have each : ∀ name ∈ e.markers.references text,
        ∃ x, e.referenceText available s name = .ok x := by
      intro name hname
      obtain ⟨target, names⟩ := he.target s text name hs string hname
      cases target with
      | environment => exact ⟨_, referenceText_eq_ok.2 (Or.inl ⟨names, rfl⟩)⟩
      | slot next =>
        have refers : e.Refers s next := ⟨text, name, string, hname, names⟩
        have here : next ∈ available := ha next (.single refers)
        -- what `next` leads to was available, and is not `next`: that would be a cycle
        have later : ∀ t, Relation.TransGen e.Refers next t → t ∈ available.erase next := by
          intro t ht
          have ne : t ≠ next := by
            rintro rfl
            exact he.acyclic t (.refers hs refers) ht
          exact (List.mem_erase_of_ne ne).2 (ha t (.head refers ht))
        obtain ⟨v, hv⟩ := exists_read he (.refers hs refers) later
        exact ⟨_, referenceText_eq_ok.2 (Or.inr ⟨next, v, names, here, hv, rfl⟩)⟩
    choose! f hf using each
    exact ⟨_, (read_string_eq_ok string).2 ⟨f, hf, rfl⟩⟩
  · exact ⟨_, read_of_other other⟩
termination_by available.length
decreasing_by exact length_erase_lt here

/-! ## What slots read as -/

/-- What a slot reads as does not depend on the slots available. -/
theorem read_unique {available available' : List Slot} {s : Slot} {v w : Option Scalar}
    (hv : e.read available s = .ok v) (hw : e.read available' s = .ok w) : v = w := by
  rcases Scalar.string_or_other (e.value? s) with ⟨text, string⟩ | other
  · obtain ⟨f, hf, rfl⟩ := (read_string_eq_ok string).1 hv
    obtain ⟨g, hg, rfl⟩ := (read_string_eq_ok string).1 hw
    -- both runs ask the same targets, each with one slot fewer available
    have same : ∀ name ∈ e.markers.references text, f name = g name := by
      intro name hname
      rcases referenceText_eq_ok.1 (hf name hname) with ⟨names, fn⟩ | ⟨next, v, names, here, hv, fn⟩
      · rcases referenceText_eq_ok.1 (hg name hname) with ⟨-, gn⟩ | ⟨_, _, names', -⟩
        · rw [fn, gn]
        · cases names.unique names'
      · rcases referenceText_eq_ok.1 (hg name hname) with ⟨names', -⟩ | ⟨_, w, names', -, hw, gn⟩
        · cases names.unique names'
        · cases names.unique names'
          rw [fn, gn, read_unique hv hw]
    rw [Markers.filled_congr same]
  · rw [read_of_other other] at hv hw
    exact (Except.ok.inj hv).symm.trans (Except.ok.inj hw)
termination_by available.length
decreasing_by exact length_erase_lt here

/-- There is one value for each slot that it reads as, whatever is available. -/
theorem exists_value (e : Substituting) : ∃ value : Slot → Option Scalar,
    ∀ available s v, e.read available s = .ok v → v = value s := by
  have unique : ∀ s, ∃ value, ∀ available v, e.read available s = .ok v → v = value := by
    intro s
    by_cases h : ∃ available v, e.read available s = .ok v
    · obtain ⟨available, value, hvalue⟩ := h
      exact ⟨value, fun _ _ hv => read_unique hv hvalue⟩
    · exact ⟨none, fun available v hv => absurd ⟨available, v, hv⟩ h⟩
  choose value unique using unique
  exact ⟨value, fun available s => unique s available⟩

theorem substituted_of_read (hvalue : ∀ available s v, e.read available s = .ok v → v = value s)
    (h : e.read available s = .ok v) : e.Substituted value s := by
  constructor
  · intro text string
    obtain ⟨f, hf, hv⟩ := (read_string_eq_ok string).1 h
    refine ⟨f, fun name hname => ?_, (hvalue _ _ _ h).symm.trans hv⟩
    rcases referenceText_eq_ok.1 (hf name hname) with ⟨names, fn⟩ | ⟨next, w, names, -, hw, fn⟩
    · exact ⟨_, names, fn⟩
    · refine ⟨_, names, ?_⟩
      rw [fn, hvalue _ _ _ hw, Target.text]
  · intro other
    rw [read_of_other other] at h
    rw [← hvalue available s _ (read_of_other other)]

/-- A slot reads as its value in any reading. -/
theorem read_eq_of_reading (hr : e.Reading value) {available : List Slot} {s : Slot}
    {v : Option Scalar} (hs : e.Reached s) (h : e.read available s = .ok v) : v = value s := by
  rcases Scalar.string_or_other (e.value? s) with ⟨text, string⟩ | other
  · obtain ⟨f, hf, rfl⟩ := (read_string_eq_ok string).1 h
    obtain ⟨g, hg, same⟩ := (hr s hs).string text string
    rw [same]
    have agree : ∀ name ∈ e.markers.references text, f name = g name := by
      intro name hname
      obtain ⟨target, names, gn⟩ := hg name hname
      rcases referenceText_eq_ok.1 (hf name hname) with ⟨names', fn⟩ | ⟨next, v, names', here, hv, fn⟩
      · cases names.unique names'
        rw [fn, gn, Target.text]
      · cases names.unique names'
        have reached : e.Reached next := .refers hs ⟨text, name, string, hname, names⟩
        rw [fn, gn, Target.text, read_eq_of_reading hr reached hv]
    rw [Markers.filled_congr agree]
  · rw [read_of_other other] at h
    rw [(hr s hs).other other]
    exact (Except.ok.inj h).symm
termination_by available.length
decreasing_by exact length_erase_lt here

end Substituting

/-! ## The whole document -/

/-- The data of a node at a place, `value` giving what slots read as. -/
def Layered.valued (value : Slot → Option Scalar) (place : Place) (l : Layered) : NodeData :=
  match l.shape with
  | .object => { key := l.key, type := .object }
  | .array => { key := l.key, type := .array }
  | .scalar history =>
    match value ⟨place, history.length - 1⟩ with
    | some v => .ofScalar l.key v
    | none => { key := l.key, type := .string }

/-- The nodes below a place, each scalar with what its last slot reads as. The items of an array are
keyed by their positions. -/
def Forest.valued (value : Slot → Option Scalar) (parent : Shape) (place : Place) (position : Nat) :
    Forest Layered → Forest NodeData
  | .nil => .nil
  | .cons l cs ss =>
    let here := place ++ [parent.step position l]
    let children := cs.valued value l.shape here 0
    .cons (l.valued value here) (if l.shape = .array then numberItems children else children)
      (ss.valued value parent place (position + 1))

/-- The document, each scalar with what its last slot reads as. -/
def Rose.valued (value : Slot → Option Scalar) (r : Rose Layered) : Draft :=
  ⟨r.label.valued value [], r.children.valued value r.label.shape [] 0⟩

section Resolved

variable {g : Slot → Except CompileError (Option Scalar)} {value : Slot → Option Scalar}

theorem Layered.resolved_eq_valued {place : Place} {l : Layered}
    (h : ∀ history, l.shape = .scalar history →
      g ⟨place, history.length - 1⟩ = .ok (value ⟨place, history.length - 1⟩)) :
    l.resolved g place = .ok (l.valued value place) := by
  unfold resolved valued
  cases shape : l.shape with
  | object => rfl
  | array => rfl
  | scalar history =>
    simp only [h history shape]
    cases value ⟨place, history.length - 1⟩ <;> rfl

theorem Layered.exists_read_of_resolved {place : Place} {l : Layered} {d : NodeData}
    (h : l.resolved g place = .ok d) {history : List (Option Scalar)}
    (shape : l.shape = .scalar history) : ∃ v, g ⟨place, history.length - 1⟩ = .ok v := by
  unfold resolved at h
  rw [shape] at h
  obtain ⟨v, hv, -⟩ := Outcome.bind_eq_ok.1 h
  exact ⟨v, hv⟩

theorem Forest.resolved_eq_valued {f : Forest Layered} {parent : Shape} {place : Place}
    {position : Nat}
    (h : ∀ x ∈ f.located parent position, ∀ history, x.2.label.shape = .scalar history →
      g ⟨place ++ x.1, history.length - 1⟩ = .ok (value ⟨place ++ x.1, history.length - 1⟩)) :
    f.resolved g parent place position = .ok (f.valued value parent place position) := by
  induction f generalizing parent place position with
  | nil => rfl
  | cons l cs ss ihc ihs =>
    rw [located_cons] at h
    have own : l.resolved g (place ++ [parent.step position l]) =
        .ok (l.valued value (place ++ [parent.step position l])) :=
      Layered.resolved_eq_valued (h ([parent.step position l], ⟨l, cs⟩)
        (List.mem_append_left _ (List.mem_map.2 ⟨_, Rose.mem_located_nil.2 rfl, rfl⟩)))
    have below : cs.resolved g l.shape (place ++ [parent.step position l]) 0 =
        .ok (cs.valued value l.shape (place ++ [parent.step position l]) 0) :=
      ihc fun x hx => by
        have hx := h (parent.step position l :: x.1, x.2)
          (List.mem_append_left _ (List.mem_map.2 ⟨x, List.mem_cons_of_mem _ hx, rfl⟩))
        rwa [List.append_cons] at hx
    have after := ihs fun x hx => h x (List.mem_append_right _ hx)
    rw [resolved, own, below, after]
    rfl

theorem Rose.resolved_eq_valued {r : Rose Layered}
    (h : ∀ place n, (place, n) ∈ r.located → ∀ history, n.label.shape = .scalar history →
      g ⟨place, history.length - 1⟩ = .ok (value ⟨place, history.length - 1⟩)) :
    r.label.resolved g [] = .ok (r.label.valued value []) ∧
      r.children.resolved g r.label.shape [] 0 = .ok (r.valued value).children :=
  ⟨Layered.resolved_eq_valued (h [] r (mem_located_nil.2 rfl)),
    Forest.resolved_eq_valued fun x hx => h x.1 x.2 (List.mem_cons_of_mem _ hx)⟩

theorem Forest.resolved_cons_eq_ok {l : Layered} {cs ss : Forest Layered} {parent : Shape}
    {place : Place} {position : Nat} {f' : Forest NodeData} :
    (Forest.cons l cs ss).resolved g parent place position = .ok f' ↔
      ∃ data children rest, l.resolved g (place ++ [parent.step position l]) = .ok data ∧
        cs.resolved g l.shape (place ++ [parent.step position l]) 0 = .ok children ∧
        ss.resolved g parent place (position + 1) = .ok rest ∧
        .cons data (if l.shape = .array then numberItems children else children) rest = f' := by
  simp only [resolved, Outcome.bind_eq_ok, Outcome.pure_eq_ok]
  exact ⟨fun ⟨data, hd, cs, hcs, ss, hss, h⟩ => ⟨data, cs, ss, hd, hcs, hss, h⟩,
    fun ⟨data, cs, ss, hd, hcs, hss, h⟩ => ⟨data, hd, cs, hcs, ss, hss, h⟩⟩

theorem Forest.exists_read_of_resolved {f : Forest Layered} {parent : Shape} {place : Place}
    {position : Nat} {f' : Forest NodeData}
    (h : f.resolved g parent place position = .ok f') {x : Place × Rose Layered}
    (hx : x ∈ f.located parent position) {history : List (Option Scalar)}
    (shape : x.2.label.shape = .scalar history) :
    ∃ v, g ⟨place ++ x.1, history.length - 1⟩ = .ok v := by
  induction f generalizing parent place position f' x with
  | nil => cases hx
  | cons l cs ss ihc ihs =>
    obtain ⟨data, children, rest, hdata, hchildren, hrest, -⟩ := resolved_cons_eq_ok.1 h
    rw [located_cons, List.mem_append, List.mem_map] at hx
    rcases hx with ⟨y, hy, rfl⟩ | hx
    · rcases List.mem_cons.1 hy with rfl | hy
      · exact Layered.exists_read_of_resolved hdata shape
      · rw [List.append_cons]
        exact ihc hchildren hy shape
    · exact ihs hrest hx shape

end Resolved

namespace Substituting

variable {e : Substituting}

/-- If a document is resolved, the last slot of every scalar is read. -/
theorem exists_read_of_last {draft : Draft} (h : e.resolved = .ok draft) {place : Place}
    {n : Rose Layered} (hn : (place, n) ∈ e.document.located) {history : List (Option Scalar)}
    (shape : n.label.shape = .scalar history) :
    ∃ v, e.read (e.document.slots.erase ⟨place, history.length - 1⟩)
      ⟨place, history.length - 1⟩ = .ok v := by
  obtain ⟨data, hdata, h⟩ := Outcome.bind_eq_ok.1 h
  obtain ⟨children, hchildren, -⟩ := Outcome.bind_eq_ok.1 h
  rcases List.mem_cons.1 hn with same | hn
  · cases same
    exact Layered.exists_read_of_resolved hdata shape
  · exact Forest.exists_read_of_resolved hchildren hn shape

theorem resolved_eq_valued {value : Slot → Option Scalar}
    (h : ∀ place n, (place, n) ∈ e.document.located → ∀ history, n.label.shape = .scalar history →
      e.read (e.document.slots.erase ⟨place, history.length - 1⟩) ⟨place, history.length - 1⟩ =
        .ok (value ⟨place, history.length - 1⟩)) :
    e.resolved = .ok (e.document.valued value) := by
  obtain ⟨data, children⟩ := Rose.resolved_eq_valued
    (g := fun s => e.read (e.document.slots.erase s) s) h
  unfold resolved
  simp only [data, children]
  rfl

theorem exists_read_of_reached {draft : Draft} (h : e.resolved = .ok draft) {s : Slot}
    (hs : e.Reached s) : ∃ available v, e.read available s = .ok v := by
  induction hs with
  | last hn shape => exact ⟨_, exists_read_of_last h hn shape⟩
  | refers _ ht ih =>
    obtain ⟨available, v, hv⟩ := ih
    obtain ⟨-, w, hw⟩ := exists_read_of_refers hv ht
    exact ⟨_, w, hw⟩

theorem resolvable_of_resolved {draft : Draft} (h : e.resolved = .ok draft) : e.Resolvable where
  target s text name hs string hname := by
    obtain ⟨available, v, hv⟩ := exists_read_of_reached h hs
    exact exists_target_of_read hv string hname
  acyclic s hs := by
    obtain ⟨available, v, hv⟩ := exists_read_of_reached h hs
    exact not_transGen_of_read hv

/-- A resolvable document is resolved. -/
theorem exists_resolved (settled : e.document.Everywhere Rose.Settled) (he : e.Resolvable) :
    ∃ draft, e.resolved = .ok draft := by
  obtain ⟨value, hvalue⟩ := exists_value e
  refine ⟨e.document.valued value, resolved_eq_valued fun place n hn history shape => ?_⟩
  have reached : e.Reached ⟨place, history.length - 1⟩ := .last hn shape
  obtain ⟨v, hv⟩ := exists_read he reached fun t ht => by
    have ne : t ≠ ⟨place, history.length - 1⟩ := by
      rintro rfl
      exact he.acyclic _ reached ht
    exact (List.mem_erase_of_ne ne).2
      (mem_slots_of_transGen settled (reached.mem_slots settled) ht)
  rw [← hvalue _ _ _ hv]
  exact hv

theorem exists_reading {draft : Draft} (h : e.resolved = .ok draft) :
    ∃ value, e.Reading value := by
  obtain ⟨value, hvalue⟩ := exists_value e
  refine ⟨value, fun s hs => ?_⟩
  obtain ⟨available, v, hv⟩ := exists_read_of_reached h hs
  exact substituted_of_read hvalue hv

/-- What a document resolves to is said by any reading of it. -/
theorem eq_valued_of_reading {draft : Draft} (h : e.resolved = .ok draft)
    {value : Slot → Option Scalar} (hr : e.Reading value) : draft = e.document.valued value := by
  have resolved : e.resolved = .ok (e.document.valued value) := by
    refine resolved_eq_valued fun place n hn history shape => ?_
    obtain ⟨v, hv⟩ := exists_read_of_last h hn shape
    rw [← read_eq_of_reading hr (.last hn shape) hv]
    exact hv
  exact Except.ok.inj (h.symm.trans resolved)

/-- **Substitution of references is exact.** In the document that any layers of any configuration
expand to, for any markers and any name of the environment, substitution succeeds iff, from the last
layer of every scalar on, every reference reached has a target and no chain of references is cyclic.
The result is then the document in which the text of every scalar's last layer has each reference
replaced by the text of its target, whichever reading of the document says so. -/
theorem resolved_exact {c : Configuration} {environment : String} {lineage : List Handle}
    {document : Rose Layered}
    (h : (Expanding.ofConfiguration c environment (c.merged lineage)).expanded = .ok document)
    (m : Markers) (name : String) :
    let e : Substituting := ⟨name, m, document⟩
    ((∃ draft, e.resolved = .ok draft) ↔ e.Resolvable) ∧
      ∀ draft, e.resolved = .ok draft →
        (∃ value, e.Reading value) ∧
          ∀ value, e.Reading value → draft = document.valued value := by
  intro e
  have settled : e.document.Everywhere Rose.Settled := Expanding.settled_expanded h
  refine ⟨⟨?_, exists_resolved settled⟩, fun draft hd => ⟨exists_reading hd, fun value hr => ?_⟩⟩
  · rintro ⟨draft, hd⟩
    exact resolvable_of_resolved hd
  · exact eq_valued_of_reading hd hr

/-- A value that refers to the one below it, and one that refers outward and to the environment. -/
def nestedReferences : Configuration where
  default := .ofDrafts .default <|
    .cons (.ofScalar "host" (.string "db.local")) .nil <|
    .cons { key := "db" }
      (.cons (.ofScalar "port" (.number (.int 5432))) .nil <|
        .cons (.ofScalar "url" (.string "$\x7bhost\x7d:$\x7bport\x7d/$\x7benv\x7d")) .nil .nil)
      .nil
  environments := .ofDrafts .environments <|
    .cons { key := "prod" }
      (.cons (.ofScalar "host" (.string "prod.$\x7bhost\x7d")) .nil .nil) .nil

theorem resolved_exact_nestedReferences :
    ∃ document,
      (Expanding.ofConfiguration nestedReferences "prod" (nestedReferences.merged [1])).expanded =
        .ok document ∧
      Resolvable ⟨"prod", .standard, document⟩ ∧
      ∃ value, Reading ⟨"prod", .standard, document⟩ value ∧
        resolved ⟨"prod", .standard, document⟩ = .ok (document.valued value) := by
  obtain ⟨document, expanded, substituted⟩ : ∃ document,
      (Expanding.ofConfiguration nestedReferences "prod" (nestedReferences.merged [1])).expanded =
        .ok document ∧
      (resolved ⟨"prod", .standard, document⟩).toOption.isSome := by
    refine ⟨_, Outcome.toOption_eq_some.1 (by rfl), by decide +kernel⟩
  obtain ⟨draft, hd⟩ := Outcome.isSome_toOption.1 substituted
  obtain ⟨resolvable, result⟩ := resolved_exact expanded .standard "prod"
  obtain ⟨⟨value, hr⟩, unique⟩ := result draft hd
  exact ⟨document, expanded, resolvable.1 ⟨draft, hd⟩, value, hr, (unique value hr) ▸ hd⟩

end Substituting

end LayeredConfig
