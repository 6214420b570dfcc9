import LayeredConfig.Proofs.Renaming.Text

/-!
# The gaps of a text

A text that is cut at its references has none left: no marker that reads as a reference stands in a gap
(`Markers.not_standsIn_gap`). So a text has a reference iff such a marker stands somewhere in it
(`references_ne_nil_iff`), whatever it was put together from.
-/

namespace LayeredConfig

/-- The gaps of a cut text, in order. -/
def Split.gaps (s : Split) : List (List Char) := s.marked.map Prod.fst ++ [s.tail]

theorem Split.gaps_push (c : Char) (s : Split) :
    ∃ gap more, s.gaps = gap :: more ∧ (s.push c).gaps = (c :: gap) :: more := by
  obtain ⟨- | ⟨⟨gap, name⟩, more⟩, tail⟩ := s
  · exact ⟨tail, [], rfl, rfl⟩
  · exact ⟨gap, more.map Prod.fst ++ [tail], rfl, rfl⟩

namespace Markers

variable {m : Markers} {name text : String} {cs : List Char}

/-- A marker that reads as a reference stands somewhere in a text. -/
def StandsIn (m : Markers) (name : String) (cs : List Char) : Prop :=
  m.Marks name ∧ (m.mark name).toList <:+: cs

theorem StandsIn.mono {cs' : List Char} (h : m.StandsIn name cs) (inside : cs <:+: cs') :
    m.StandsIn name cs' := ⟨h.1, h.2.trans inside⟩

theorem not_standsIn_nil (name : String) : ¬m.StandsIn name [] :=
  fun h => m.toList_mark_ne name (List.infix_nil.1 h.2)

/-- Where no reference starts, one stands in the text only if it does behind the first character. -/
theorem StandsIn.of_cons {c : Char} (h : m.StandsIn name (c :: cs))
    (missing : m.referenceAt? (c :: cs) = none) : m.StandsIn name cs := by
  rcases List.infix_cons_iff.1 h.2 with ⟨rest, whole⟩ | inside
  · rw [← whole, h.1.referenceAt?_append] at missing
    cases missing
  · exact ⟨h.1, inside⟩

theorem referenceAt?_eq_none_of_start {front : List Char} (start : front <+: cs)
    (missing : m.referenceAt? cs = none) : m.referenceAt? front = none := by
  obtain ⟨more, rfl⟩ := start
  cases found : m.referenceAt? front with
  | none => rfl
  | some x =>
    obtain ⟨name, rest⟩ := x
    rw [referenceAt?_append found] at missing
    cases missing

theorem exists_gaps (m : Markers) (cs : List Char) :
    ∃ gap more, (m.split cs).gaps = gap :: more ∧ gap <+: cs := by
  cases cs with
  | nil => exact ⟨[], [], by rw [split]; rfl, List.prefix_refl []⟩
  | cons c cs =>
    cases found : m.referenceAt? (c :: cs) with
    | some x => exact ⟨[], (m.split x.2).gaps, by rw [split_of_referenceAt? found]; rfl, List.nil_prefix⟩
    | none =>
      obtain ⟨gap, more, same, pushed⟩ := (m.split cs).gaps_push c
      obtain ⟨_, _, same', start⟩ := exists_gaps m cs
      cases same.symm.trans same'
      exact ⟨c :: gap, more, by rw [split_of_not_referenceAt? found, pushed],
        (List.prefix_cons_inj c).2 start⟩

/-- No reference stands in a gap. -/
theorem not_standsIn_gap (name : String) {gap : List Char} (h : gap ∈ (m.split cs).gaps) :
    ¬m.StandsIn name gap := by
  induction cs using split.induct m generalizing gap with
  | case1 =>
    rw [split] at h
    rw [List.mem_singleton.1 h]
    exact not_standsIn_nil name
  | case2 c cs found rest hr ih =>
    rw [split_of_referenceAt? hr] at h
    rcases List.mem_cons.1 h with rfl | h
    · exact not_standsIn_nil name
    · exact ih h
  | case3 c cs missing ih =>
    obtain ⟨first, more, same, pushed⟩ := (m.split cs).gaps_push c
    obtain ⟨_, _, same', start⟩ := m.exists_gaps cs
    cases same.symm.trans same'
    rw [split_of_not_referenceAt? missing, pushed] at h
    rw [same] at ih
    rcases List.mem_cons.1 h with rfl | h
    · intro stands
      have start : c :: first <+: c :: cs := (List.prefix_cons_inj c).2 start
      exact ih List.mem_cons_self (stands.of_cons (referenceAt?_eq_none_of_start start missing))
    · exact ih (List.mem_cons_of_mem first h)

theorem marks_of_mem_references (h : name ∈ m.references (String.ofList cs)) : m.Marks name := by
  induction cs using split.induct m with
  | case1 =>
    rw [references_nil] at h
    cases h
  | case2 c cs found rest hr ih =>
    rw [references_of_referenceAt? hr, List.mem_cons] at h
    rcases h with rfl | h
    · exact marks_of_referenceAt? hr
    · exact ih h
  | case3 c cs missing ih =>
    rw [references_of_not_referenceAt? missing] at h
    exact ih h

/-- A text has a reference iff a marker that reads as one stands in it. -/
theorem references_ne_nil_iff : m.references text ≠ [] ↔ ∃ name, m.StandsIn name text.toList := by
  constructor
  · intro some
    obtain ⟨name, hname⟩ := List.exists_mem_of_ne_nil _ some
    rw [← String.ofList_toList (s := text)] at hname
    exact ⟨name, marks_of_mem_references hname, isInfix_mark hname⟩
  · rintro ⟨name, stands⟩ none
    have uncut : (m.split text.toList).marked = [] := List.map_eq_nil_iff.1 none
    -- a text without references is its only gap
    have gap : text.toList ∈ (m.split text.toList).gaps := by
      have whole := congrArg String.toList (m.filled_mark text)
      rw [filled, uncut, String.toList_ofList, List.map_nil, List.flatten_nil, List.nil_append] at whole
      rw [Split.gaps, whole]
      exact List.mem_append_right _ (List.mem_singleton_self _)
    exact not_standsIn_gap name gap stands

/-- What is put for a name stands in the filled text. -/
theorem isInfix_filled {f : String → String} (h : name ∈ m.references text) :
    (f name).toList <:+: (m.filled text f).toList := by
  obtain ⟨⟨gap, cs⟩, hcs, rfl⟩ := List.mem_map.1 h
  have part : gap ++ (f (String.ofList cs)).toList ∈ (m.split text.toList).marked.map fun x =>
      x.1 ++ (f (String.ofList x.2)).toList := List.mem_map.2 ⟨_, hcs, rfl⟩
  rw [filled, String.toList_ofList]
  exact (List.suffix_append gap _).isInfix.trans <|
    (List.infix_of_mem_flatten part).trans (List.prefix_append _ _).isInfix

/-- A character of the filled text is in a gap or in what is put for a name. -/
theorem mem_filled {f : String → String} {c : Char} (h : c ∈ (m.filled text f).toList) :
    (∃ gap ∈ (m.split text.toList).gaps, c ∈ gap) ∨ ∃ name ∈ m.references text, c ∈ (f name).toList := by
  rw [filled, String.toList_ofList, List.mem_append, List.mem_flatten] at h
  rcases h with ⟨part, hpart, hc⟩ | hc
  · obtain ⟨⟨gap, cs⟩, hcs, rfl⟩ := List.mem_map.1 hpart
    rcases List.mem_append.1 hc with hc | hc
    · exact Or.inl ⟨gap, List.mem_append_left _ (List.mem_map.2 ⟨_, hcs, rfl⟩), hc⟩
    · exact Or.inr ⟨_, List.mem_map.2 ⟨_, hcs, rfl⟩, hc⟩
  · exact Or.inl ⟨_, List.mem_append_right _ (List.mem_singleton_self _), hc⟩

end Markers

end LayeredConfig
