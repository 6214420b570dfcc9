import LayeredConfig.Proofs.Compile.EnvironmentName
import LayeredConfig.Proofs.Gaps

/-!
# References left in compiled values

Substitution goes through a text once and does not look at what it puts in. A reference is left in a
value where the pieces of a text, its gaps and the texts put between them, join to one that stands in none
of them; from there it is handed on to every value that refers to it
(`Substituting.references_ne_nil_iff_arises`).

Main statements: `Substituting.forall_plain_iff`, for all values of what a document resolves to, and
`Configuration.plain_of_guards`: nothing is left where a character of the markers stands in references only.
-/

namespace LayeredConfig

/-! ## What slots read as -/

namespace Substituting

variable {e : Substituting} {value : Slot → Option Scalar} {s t : Slot}

/-- What a slot reads as is put together from the gaps of its text and from what the slots that it refers
to read as, and from the name of the environment, which is no piece. -/
inductive Piece (e : Substituting) (value : Slot → Option Scalar) (s : Slot) : List Char → Prop
  | gap {text : String} {gap : List Char} : e.value? s = some (.string text) →
    gap ∈ (e.markers.split text.toList).gaps → Piece e value s gap
  | slot {t : Slot} : e.Refers s t → Piece e value s (display (value t)).toList

/-- A reference arises in a slot: it stands in what the slot reads as, and in none of its pieces. -/
def Arises (e : Substituting) (value : Slot → Option Scalar) (s : Slot) : Prop :=
  ∃ name, e.markers.StandsIn name (display (value s)).toList ∧
    ∀ piece, e.Piece value s piece → ¬e.markers.StandsIn name piece

theorem isInfix_display_of_refers (h : e.Substituted value s) (ht : e.Refers s t) :
    (display (value t)).toList <:+: (display (value s)).toList := by
  obtain ⟨text, name, string, hname, names⟩ := ht
  have referent : e.referent value s name = display (value t) := by
    rw [Substituting.referent, target_eq_ok.2 names]
    rfl
  rw [h.eq_filled string, ← referent]
  exact Markers.isInfix_filled hname

/-- A reference stands in what a slot reads as iff one arises there or on the way that references lead
from it. -/
theorem references_ne_nil_iff_arises (hr : e.Reading value) {available : List Slot} {s : Slot}
    {v : Option Scalar} (hs : e.Reached s) (read : e.read available s = .ok v) :
    e.markers.references (display (value s)) ≠ [] ↔
      ∃ t, Relation.ReflTransGen e.Refers s t ∧ e.Arises value t := by
  rw [Markers.references_ne_nil_iff]
  constructor
  · rintro ⟨name, stands⟩
    by_cases fresh : ∀ piece, e.Piece value s piece → ¬e.markers.StandsIn name piece
    · exact ⟨s, .refl, name, stands, fresh⟩
    · push Not at fresh
      obtain ⟨piece, hpiece, stands⟩ := fresh
      -- gaps hold no reference, so it was there in a slot referred to, which fewer slots are left to read
      cases hpiece with
      | gap _ hgap => exact absurd stands (Markers.not_standsIn_gap name hgap)
      | @slot t ht =>
        obtain ⟨here, w, hw⟩ := exists_read_of_refers read ht
        obtain ⟨u, hu, arises⟩ := (references_ne_nil_iff_arises hr (.refers hs ht) hw).1
          (Markers.references_ne_nil_iff.2 ⟨name, stands⟩)
        exact ⟨u, .head ht hu, arises⟩
  · rintro ⟨t, leads, name, stands, -⟩
    induction leads using Relation.ReflTransGen.head_induction_on generalizing available v with
    | refl => exact ⟨name, stands⟩
    | head ht _ ih =>
      obtain ⟨-, w, hw⟩ := exists_read_of_refers read ht
      obtain ⟨inner, stands⟩ := ih (.refers hs ht) hw
      exact ⟨inner, stands.mono (isInfix_display_of_refers (hr _ hs) ht)⟩
termination_by available.length
decreasing_by exact length_erase_lt here

end Substituting

/-! ## Values of the result -/

/-- The values of what a document resolves to, in document order. -/
theorem Forest.map_value_valued (value : Slot → Option Scalar) (parent : Shape) (place : Place)
    (position : Nat) (f : Forest Layered) :
    (f.valued value parent place position).preorder.map (·.value) =
      (f.located parent position).map fun x => (x.2.label.valued value (place ++ x.1)).value := by
  induction f generalizing parent place position with
  | nil => rfl
  | cons l cs ss ihc ihs =>
    have numbered (drafts : Forest NodeData) :
        (if l.shape = .array then numberItems drafts else drafts).preorder.map (·.value) =
          drafts.preorder.map (·.value) := by
      split
      · exact map_preorder_mapRoots (k := NodeData.value) (by exact fun _ _ => rfl) drafts 0
      · rfl
    simp only [valued, preorder, located, List.map_cons, List.map_append, numbered, ihc, ihs, List.map_map,
      Function.comp_def, List.append_assoc, List.cons_append, List.nil_append]

namespace Substituting

variable {e : Substituting} {value : Slot → Option Scalar} {s t : Slot}

/-- A slot whose text the result has: the last of a scalar, where the root is an object. -/
structure Shown (e : Substituting) (s : Slot) : Prop where
  object : e.document.label.shape = .object
  last : ∃ place n history, (place, n) ∈ e.document.located ∧ n.label.shape = .scalar history ∧
    s = ⟨place, history.length - 1⟩
  string : ∃ text, e.value? s = some (.string text)

theorem Shown.reached (hs : e.Shown s) : e.Reached s := by
  obtain ⟨place, n, history, hn, shape, rfl⟩ := hs.last
  exact .last hn shape

theorem Reached.of_reflTransGen (hs : e.Reached s) (leads : Relation.ReflTransGen e.Refers s t) :
    e.Reached t := by
  induction leads with
  | refl => exact hs
  | tail _ refers ih => exact .refers ih refers

section Resolved

variable {draft : Draft} (hd : e.resolved = .ok draft) (hr : e.Reading value)

include hd hr

/-- What a slot with a text reads as has no references iff none arises on the way that references lead
from it. -/
theorem plain_iff_not_arises (hs : e.Reached s) {text : String} (string : e.value? s = some (.string text)) :
    e.markers.Plain (value s) ↔ ∀ t, Relation.ReflTransGen e.Refers s t → ¬e.Arises value t := by
  obtain ⟨available, v, read⟩ := exists_read_of_reached hd hs
  have left := references_ne_nil_iff_arises hr hs read
  have plain : e.markers.Plain (value s) ↔ e.markers.references (display (value s)) = [] := by
    rw [(hr s hs).eq_filled string]
    simp [Markers.Plain, display, Scalar.render]
  rw [plain, ← not_ne_iff, left]
  push Not
  rfl

/-- The values of the result have no references iff none arises on the way from a text shown. -/
theorem forall_plain_iff :
    (∀ d ∈ (if e.document.label.shape = .object then (e.document.valued value).children else .nil).preorder,
      e.markers.Plain d.value) ↔
    ∀ s, e.Shown s → ∀ t, Relation.ReflTransGen e.Refers s t → ¬e.Arises value t := by
  split
  case isFalse other => exact iff_of_true (List.forall_mem_nil _) fun s hs => absurd hs.object other
  case isTrue object =>
    have values := Forest.map_value_valued value e.document.label.shape [] 0 e.document.children
    rw [← List.forall_mem_map (f := NodeData.value) (P := e.markers.Plain), Rose.valued, values,
      List.forall_mem_map]
    constructor
    · intro plain s shown
      obtain ⟨place, n, history, hn, shape, rfl⟩ := shown.last
      obtain ⟨text, string⟩ := shown.string
      refine (plain_iff_not_arises hd hr shown.reached string).1 ?_
      rcases List.mem_cons.1 hn with same | hn
      · cases same
        cases object.symm.trans shape
      · have kept := plain _ hn
        rwa [List.nil_append, Layered.value_valued shape] at kept
    · rintro none ⟨place, n⟩ hn text held
      have hn : (place, n) ∈ e.document.located := List.mem_cons_of_mem _ hn
      cases shape : n.label.shape with
      | scalar history =>
        have reached : e.Reached ⟨place, history.length - 1⟩ := .last hn shape
        rw [List.nil_append, Layered.value_valued shape] at held
        rcases Scalar.string_or_other (e.value? ⟨place, history.length - 1⟩) with ⟨text', string⟩ | other
        · refine (plain_iff_not_arises hd hr reached string).2 ?_ text held
          exact none _ ⟨object, ⟨place, n, history, hn, shape, rfl⟩, text', string⟩
        · rw [(hr _ reached).other other] at held
          exact absurd held (other text)
      | object => simp [Layered.valued, shape] at held
      | array => simp [Layered.valued, shape] at held

end Resolved

end Substituting

/-! ## Characters that stand in references only -/

/-- A character stands in no gap of a text, and not in another value. -/
def Markers.Guards (m : Markers) (c : Char) : Option Scalar → Prop
  | some (.string text) => ∀ gap ∈ (m.split text.toList).gaps, c ∉ gap
  | v => c ∉ (Substituting.display v).toList

theorem Markers.Guards.not_mem {m : Markers} {c : Char} {v : Option Scalar} (h : m.Guards c v)
    (other : ∀ text, v ≠ some (.string text)) : c ∉ (Substituting.display v).toList := by
  rcases v with - | text | b | n
  · exact h
  · exact absurd rfl (other text)
  · exact h
  · exact h

namespace Substituting

variable {e : Substituting} {value : Slot → Option Scalar}

/-- Where a character stands in no gap, no value but a string and not in the name of the environment, it
stands in nothing that is read. -/
theorem not_mem_display {c : Char} (guarded : ∀ s, e.markers.Guards c (e.value? s))
    (named : c ∉ e.environment.toList) (hr : e.Reading value) {available : List Slot} {s : Slot}
    {v : Option Scalar} (hs : e.Reached s) (read : e.read available s = .ok v) :
    c ∉ (display (value s)).toList := by
  have own := guarded s
  rcases Scalar.string_or_other (e.value? s) with ⟨text, string⟩ | other
  · rw [string] at own
    rw [(hr s hs).eq_filled string]
    intro inside
    rcases Markers.mem_filled inside with ⟨gap, hgap, hc⟩ | ⟨name, hname, hc⟩
    · exact own gap hgap hc
    · obtain ⟨target, names⟩ := exists_target_of_read read string hname
      rw [referent, target_eq_ok.2 names] at hc
      cases target with
      | environment => exact named hc
      | slot next =>
        have refers : e.Refers s next := ⟨text, name, string, hname, names⟩
        obtain ⟨here, w, hw⟩ := exists_read_of_refers read refers
        exact not_mem_display guarded named hr (.refers hs refers) hw hc
  · rw [(hr s hs).other other]
    exact own.not_mem other
termination_by available.length
decreasing_by exact length_erase_lt here

end Substituting

/-- Where a character of the markers stands in the values of a configuration within references only, and not
in the name of the environment, no reference is left in a compiled tree. -/
theorem Configuration.plain_of_guards {c : Configuration} {m : Markers} {environment : String} {tree : Tree}
    {char : Char} (marker : char ∈ m.opening.toList ∨ char ∈ m.closing.toList)
    (guarded : c.Everywhere fun n => m.Guards char n.label.value) (named : char ∉ environment.toList)
    (compiled : c.compile m environment = .ok tree) : ∀ e ∈ tree.entries, m.Plain e.data.value := by
  obtain ⟨lineage, document, draft, value, -, expanded, resolved, reading, rfl⟩ :=
    exists_resolved_of_compile compiled
  have held := Substituting.holds_value? (e := ⟨environment, m, document⟩) (p := m.Guards char)
    List.not_mem_nil (Expanding.everywhere_holds_expanded List.not_mem_nil guarded expanded)
  rw [Tree.forall_data_ofDrafts (P := fun d => m.Plain d.value), and_iff_right nofun]
  refine (Substituting.forall_plain_iff resolved reading).2 fun s shown t leads => ?_
  rintro ⟨name, ⟨-, inside⟩, -⟩
  have reached := shown.reached.of_reflTransGen leads
  obtain ⟨available, v, read⟩ := Substituting.exists_read_of_reached resolved reached
  refine Substituting.not_mem_display held named reading reached read (inside.subset ?_)
  rw [Markers.toList_mark]
  rcases marker with opening | closing
  · exact List.mem_append_left _ opening
  · exact List.mem_append_right _ (List.mem_append_right _ closing)

end LayeredConfig
