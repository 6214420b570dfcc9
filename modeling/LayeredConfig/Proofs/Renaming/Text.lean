import LayeredConfig.Proofs.Reference

/-!
# Texts with their references renamed

`renamedText m ν text` is the text with every reference to a name turned into a reference to the
name that `ν` gives. It is cut as the text was, with the names changed (`split_renamedChars`): the
gaps stay free of references as long as no reference can be closed after a line break, and each new
name, marked, has to read as a reference to itself (`Marks`).
-/

namespace LayeredConfig

/-! ## Openings and closings -/

theorem afterOpening?_append_self (opening rest : List Char) :
    afterOpening? opening (opening ++ rest) = some rest := afterOpening?_eq_some.2 rfl

theorem afterOpening?_self (opening : List Char) : afterOpening? opening opening = some [] :=
  afterOpening?_eq_some.2 (List.append_nil opening).symm

theorem afterOpening?_append {opening text rest : List Char}
    (h : afterOpening? opening text = some rest) (more : List Char) :
    afterOpening? opening (text ++ more) = some (rest ++ more) := by
  rw [afterOpening?_eq_some] at h ⊢
  rw [h, List.append_assoc]

/-- A text that is long enough to start with the opening starts with it already. -/
theorem afterOpening?_append_eq_none {opening text : List Char}
    (h : afterOpening? opening text = none) (long : opening.length ≤ text.length)
    (more : List Char) : afterOpening? opening (text ++ more) = none := by
  cases found : afterOpening? opening (text ++ more) with
  | none => rfl
  | some rest =>
    have same := afterOpening?_eq_some.1 found
    obtain ⟨t, ht, -⟩ | ⟨t, ht, -⟩ := List.append_eq_append_iff.1 same
    · obtain rfl : t = [] := by
        have := congrArg List.length ht
        rw [List.length_append] at this
        exact List.eq_nil_of_length_eq_zero (by omega)
      rw [List.append_nil] at ht
      rw [← ht, afterOpening?_self] at h
      cases h
    · rw [afterOpening?_eq_some.2 ht] at h
      cases h

section Closing

variable {closing : List Char}

theorem uptoClosing?_cons (c : Char) (text : List Char) :
    uptoClosing? closing (c :: text) =
      match afterOpening? closing (c :: text) with
      | some rest => some ([], rest)
      | none =>
        if c = '\n' then none
        else (uptoClosing? closing text).map fun (name, rest) => (c :: name, rest) := rfl

/-- What comes after a closing does not matter to where the first one is. -/
theorem uptoClosing?_append {text name rest : List Char}
    (h : uptoClosing? closing text = some (name, rest)) (more : List Char) :
    uptoClosing? closing (text ++ more) = some (name, rest ++ more) := by
  induction text generalizing name with
  | nil => cases h
  | cons c text ih =>
    have whole := uptoClosing?_eq_append h
    rw [uptoClosing?_cons] at h
    rw [List.cons_append, uptoClosing?_cons]
    cases found : afterOpening? closing (c :: text) with
    | some r =>
      rw [found] at h
      cases h
      rw [← List.cons_append, afterOpening?_append found]
    | none =>
      rw [found] at h
      have long : closing.length ≤ (c :: text).length := by
        rw [whole]
        simp only [List.length_append]
        omega
      rw [← List.cons_append, afterOpening?_append_eq_none found long]
      simp only at h ⊢
      split at h
      · cases h
      · rename_i hc
        obtain ⟨⟨name', rest'⟩, found', same⟩ := Option.map_eq_some_iff.1 h
        cases same
        rw [if_neg hc, ih found']
        rfl

/-- The text up to the first closing, and the closing, is enough to find it. -/
theorem uptoClosing?_prefix {text name rest : List Char} (closed : closing ≠ [])
    (h : uptoClosing? closing text = some (name, rest)) :
    uptoClosing? closing (name ++ closing) = some (name, []) := by
  induction text generalizing name with
  | nil => cases h
  | cons c text ih =>
    have whole := uptoClosing?_eq_append h
    rw [uptoClosing?_cons] at h
    cases found : afterOpening? closing (c :: text) with
    | some r =>
      rw [found] at h
      cases h
      cases closing with
      | nil => exact absurd rfl closed
      | cons d closing => rw [List.nil_append, uptoClosing?_cons, afterOpening?_self]
    | none =>
      rw [found] at h
      simp only at h
      split at h
      · cases h
      · rename_i hc
        obtain ⟨⟨name', rest'⟩, found', same⟩ := Option.map_eq_some_iff.1 h
        cases same
        have fresh : afterOpening? closing (c :: (name' ++ closing)) = none := by
          cases early : afterOpening? closing (c :: (name' ++ closing)) with
          | none => rfl
          | some r =>
            have := afterOpening?_append early rest'
            rw [show c :: (name' ++ closing) ++ rest' = c :: text from whole.symm, found] at this
            cases this
        rw [List.cons_append, uptoClosing?_cons, fresh]
        simp only
        rw [if_neg hc, ih found']
        rfl

/-- A name lies within a line. -/
theorem not_mem_of_uptoClosing? {text name rest : List Char}
    (h : uptoClosing? closing text = some (name, rest)) : '\n' ∉ name := by
  induction text generalizing name with
  | nil => cases h
  | cons c text ih =>
    rw [uptoClosing?_cons] at h
    split at h
    · cases h
      exact List.not_mem_nil
    · split at h
      · cases h
      · rename_i hc
        obtain ⟨⟨name', rest'⟩, found', same⟩ := Option.map_eq_some_iff.1 h
        cases same
        rw [List.mem_cons, not_or]
        exact ⟨fun e => hc e.symm, ih found'⟩

/-- A closing is found after a name within the line, unless a line break comes before the name. -/
theorem mem_of_uptoClosing?_eq_none {front name rest : List Char} (hn : '\n' ∉ name)
    (h : uptoClosing? closing (front ++ (name ++ (closing ++ rest))) = none)
    (closed : closing ≠ []) : '\n' ∈ front := by
  induction front with
  | nil =>
    exfalso
    rw [List.nil_append] at h
    induction name with
    | nil =>
      cases closing with
      | nil => exact closed rfl
      | cons d closing =>
        rw [List.nil_append, List.cons_append, uptoClosing?_cons, ← List.cons_append,
          afterOpening?_append_self] at h
        cases h
    | cons c name ih =>
      rw [List.mem_cons, not_or] at hn
      rw [List.cons_append, uptoClosing?_cons] at h
      split at h
      · cases h
      · rw [if_neg fun e => hn.1 e.symm, Option.map_eq_none_iff] at h
        exact ih hn.2 h
  | cons c front ih =>
    rw [List.cons_append, uptoClosing?_cons] at h
    split at h
    · cases h
    · split at h
      · rename_i hc
        exact hc ▸ List.mem_cons_self
      · rw [Option.map_eq_none_iff] at h
        exact List.mem_cons_of_mem _ (ih h)

/-- Where a line break ends the search for a closing, what comes after it does not matter. -/
theorem uptoClosing?_eq_none_of_mem {front text text' : List Char} (hc : '\n' ∉ closing) (hf : '\n' ∈ front)
    (h : uptoClosing? closing (front ++ text) = none) :
    uptoClosing? closing (front ++ text') = none := by
  induction front with
  | nil => cases hf
  | cons c front ih =>
    rw [List.cons_append, uptoClosing?_cons] at h ⊢
    have unopened : afterOpening? closing (c :: (front ++ text')) = none := by
      cases found : afterOpening? closing (c :: (front ++ text')) with
      | none => rfl
      | some r =>
        -- the closing ends before the line break, so it stands in the other text, too
        have same : (c :: front) ++ text' = closing ++ r := afterOpening?_eq_some.1 found
        obtain ⟨t, ht, -⟩ | ⟨t, ht, -⟩ := List.append_eq_append_iff.1 same
        · exact absurd (ht ▸ List.mem_append_left t hf) hc
        · rw [← List.cons_append, ht, List.append_assoc, afterOpening?_append_self] at h
          cases h
    rw [unopened]
    simp only
    split at h
    · cases h
    · split
      · rfl
      · rename_i hcn
        rw [if_neg hcn, Option.map_eq_none_iff] at h
        rw [Option.map_eq_none_iff]
        rcases List.mem_cons.1 hf with rfl | hf
        · exact absurd rfl hcn
        · exact ih hf h

end Closing

/-! ## Markers that read as references -/

namespace Markers

variable {m : Markers} {ν : String → String}

/-- The marker of a name, on its own, is a reference to it. -/
def Marks (m : Markers) (name : String) : Prop :=
  m.referenceAt? (m.mark name).toList = some (name.toList, [])

theorem opening_toList_ne (m : Markers) : m.opening.toList ≠ [] :=
  fun h => m.opening_ne (String.toList_eq_nil_iff.1 h)

theorem closing_toList_ne (m : Markers) : m.closing.toList ≠ [] :=
  fun h => m.closing_ne (String.toList_eq_nil_iff.1 h)

theorem toList_mark (m : Markers) (name : String) :
    (m.mark name).toList = m.opening.toList ++ (name.toList ++ m.closing.toList) := by
  simp [mark]

theorem toList_mark_ne (m : Markers) (name : String) : (m.mark name).toList ≠ [] := by
  rw [toList_mark]
  exact fun h => m.opening_toList_ne (List.append_eq_nil_iff.1 h).1

theorem nameAt?_cons (closing : List Char) (c : Char) (text : List Char) :
    nameAt? closing (c :: text) =
      if c = '\n' then none
      else (uptoClosing? closing text).map fun (name, rest) => (c :: name, rest) := rfl

theorem nameAt?_eq_some {closing text name rest : List Char} :
    nameAt? closing text = some (name, rest) ↔
      ∃ c text' name', text = c :: text' ∧ name = c :: name' ∧ c ≠ '\n' ∧
        uptoClosing? closing text' = some (name', rest) := by
  cases text with
  | nil => simp [nameAt?]
  | cons c text =>
    rw [nameAt?_cons]
    constructor
    · intro h
      split at h
      · cases h
      · rename_i hc
        obtain ⟨⟨name', rest'⟩, found, same⟩ := Option.map_eq_some_iff.1 h
        cases same
        exact ⟨c, text, name', rfl, rfl, hc, found⟩
    · rintro ⟨_, _, name', same, rfl, hc, found⟩
      cases same
      rw [if_neg hc, found]
      rfl

theorem referenceAt?_append {text name rest : List Char}
    (h : m.referenceAt? text = some (name, rest)) (more : List Char) :
    m.referenceAt? (text ++ more) = some (name, rest ++ more) := by
  obtain ⟨body, opened, found⟩ := Option.bind_eq_some_iff.1 h
  obtain ⟨c, text', name', rfl, rfl, hc, found⟩ := nameAt?_eq_some.1 found
  rw [referenceAt?, afterOpening?_append opened, Option.bind_some]
  exact nameAt?_eq_some.2 ⟨c, _, name', rfl, rfl, hc, uptoClosing?_append found more⟩

theorem Marks.referenceAt?_append {name : String} (h : m.Marks name) (rest : List Char) :
    m.referenceAt? ((m.mark name).toList ++ rest) = some (name.toList, rest) :=
  Markers.referenceAt?_append h rest

/-- A name that is found has a marker that reads as a reference to it. -/
theorem marks_of_referenceAt? {text name rest : List Char}
    (h : m.referenceAt? text = some (name, rest)) : m.Marks (String.ofList name) := by
  obtain ⟨body, -, found⟩ := Option.bind_eq_some_iff.1 h
  obtain ⟨c, text', name', rfl, rfl, hc, found⟩ := nameAt?_eq_some.1 found
  rw [Marks, toList_mark, String.toList_ofList, referenceAt?, afterOpening?_append_self,
    Option.bind_some]
  exact nameAt?_eq_some.2 ⟨c, _, name', rfl, rfl, hc, uptoClosing?_prefix m.closing_toList_ne found⟩

theorem name_of_referenceAt? {text name rest : List Char}
    (h : m.referenceAt? text = some (name, rest)) : name ≠ [] ∧ '\n' ∉ name := by
  obtain ⟨body, -, found⟩ := Option.bind_eq_some_iff.1 h
  obtain ⟨c, text', name', rfl, rfl, hc, found⟩ := nameAt?_eq_some.1 found
  refine ⟨List.cons_ne_nil _ _, ?_⟩
  rw [List.mem_cons, not_or]
  exact ⟨fun e => hc e.symm, not_mem_of_uptoClosing? found⟩

/-- A reference is the marker of its name. -/
theorem mark_append_of_referenceAt? {text name rest : List Char}
    (h : m.referenceAt? text = some (name, rest)) :
    text = (m.mark (String.ofList name)).toList ++ rest := by
  rw [referenceAt?_eq_append h, toList_mark, String.toList_ofList]
  simp

theorem Marks.ne_empty {name : String} (h : m.Marks name) : name ≠ "" :=
  fun empty => (name_of_referenceAt? h).1 (String.toList_eq_nil_iff.2 empty)

/-! ## Renamed references -/

/-- The characters of a text with its references renamed. -/
def renamedChars (m : Markers) (ν : String → String) (cs : List Char) : List Char :=
  ((m.split cs).marked.map fun (gap, name) =>
    gap ++ (m.mark (ν (String.ofList name))).toList).flatten ++ (m.split cs).tail

/-- The text with each reference turned into one to the name that `ν` gives. -/
def renamedText (m : Markers) (ν : String → String) (text : String) : String :=
  String.ofList (m.renamedChars ν text.toList)

theorem renamedChars_nil : m.renamedChars ν [] = [] := by
  rw [renamedChars, split]
  rfl

theorem renamedChars_of_referenceAt? {c : Char} {cs name rest : List Char}
    (h : m.referenceAt? (c :: cs) = some (name, rest)) :
    m.renamedChars ν (c :: cs) =
      (m.mark (ν (String.ofList name))).toList ++ m.renamedChars ν rest := by
  rw [renamedChars, split_of_referenceAt? h]
  simp [renamedChars]

theorem renamedChars_of_not_referenceAt? {c : Char} {cs : List Char}
    (h : m.referenceAt? (c :: cs) = none) :
    m.renamedChars ν (c :: cs) = c :: m.renamedChars ν cs := by
  rw [renamedChars, split_of_not_referenceAt? h, flatten_push c _ _ fun _ _ => rfl]
  rfl

/-- A text either has no reference, or a first one, before which renaming changes nothing. -/
theorem renamedChars_cases (m : Markers) (ν : String → String) (cs : List Char) :
    m.renamedChars ν cs = cs ∨
      ∃ gap name rest rest' : List Char, '\n' ∉ name ∧
        cs = gap ++ m.opening.toList ++ (name ++ (m.closing.toList ++ rest)) ∧
        m.renamedChars ν cs = gap ++ m.opening.toList ++ rest' := by
  induction cs using split.induct m with
  | case1 => exact Or.inl renamedChars_nil
  | case2 c cs name rest found ih =>
    refine Or.inr ⟨[], name, rest, (ν (String.ofList name)).toList ++
      (m.closing.toList ++ m.renamedChars ν rest), (name_of_referenceAt? found).2, ?_, ?_⟩
    · rw [referenceAt?_eq_append found]
      simp
    · rw [renamedChars_of_referenceAt? found, toList_mark]
      simp
  | case3 c cs missing ih =>
    rw [renamedChars_of_not_referenceAt? missing]
    rcases ih with same | ⟨gap, name, rest, rest', hn, before, after⟩
    · exact Or.inl (congrArg (c :: ·) same)
    · exact Or.inr ⟨c :: gap, name, rest, rest', hn, congrArg (c :: ·) before,
        congrArg (c :: ·) after⟩

/-- Renaming the references behind a character makes no reference of it. -/
theorem referenceAt?_cons_renamedChars (hc : '\n' ∉ m.closing.toList) {c : Char} {cs : List Char}
    (h : m.referenceAt? (c :: cs) = none) : m.referenceAt? (c :: m.renamedChars ν cs) = none := by
  rcases m.renamedChars_cases ν cs with same | ⟨gap, name, rest, rest', hn, before, after⟩
  · rw [same]
    exact h
  rw [after]
  rw [before] at h
  cases made : m.referenceAt? (c :: (gap ++ m.opening.toList ++ rest')) with
  | none => rfl
  | some x =>
    exfalso
    obtain ⟨body, opened, found⟩ := Option.bind_eq_some_iff.1 made
    -- the opening ends before the name that is renamed, so it is there in the old text
    have same : (c :: gap ++ m.opening.toList) ++ rest' = m.opening.toList ++ body :=
      afterOpening?_eq_some.1 opened
    obtain ⟨t, ht, -⟩ | ⟨t, ht, rfl⟩ := List.append_eq_append_iff.1 same
    · have := congrArg List.length ht
      simp only [List.length_append, List.length_cons] at this
      omega
    obtain ⟨d, text, name', split, -, hd, found⟩ := nameAt?_eq_some.1 found
    cases t with
    | nil =>
      have := congrArg List.length ht
      simp only [List.length_append, List.length_cons, List.length_nil] at this
      omega
    | cons d' t =>
      cases split
      have missing : uptoClosing? m.closing.toList (t ++ (name ++ (m.closing.toList ++ rest))) =
          none := by
        rw [← List.cons_append, ← List.cons_append, ht, List.append_assoc, referenceAt?,
          afterOpening?_append_self, Option.bind_some, List.cons_append, nameAt?_cons, if_neg hd,
          Option.map_eq_none_iff] at h
        exact h
      have broken := mem_of_uptoClosing?_eq_none hn missing m.closing_toList_ne
      have lost : uptoClosing? m.closing.toList (t ++ rest') = none :=
        uptoClosing?_eq_none_of_mem hc broken missing
      cases lost.symm.trans found

theorem split_append_mark {name : String} (h : m.Marks name) (rest : List Char) :
    m.split ((m.mark name).toList ++ rest) =
      { m.split rest with marked := ([], name.toList) :: (m.split rest).marked } := by
  have found := h.referenceAt?_append rest
  cases text : (m.mark name).toList ++ rest with
  | nil => exact absurd (List.append_eq_nil_iff.1 text).1 (m.toList_mark_ne name)
  | cons c cs =>
    rw [text] at found
    exact split_of_referenceAt? found

end Markers

/-- A cut text with its names changed. -/
def Split.mapNames (ν : String → String) (s : Split) : Split :=
  { s with marked := s.marked.map fun (gap, name) => (gap, (ν (String.ofList name)).toList) }

theorem Split.mapNames_push (ν : String → String) (c : Char) (s : Split) :
    (s.push c).mapNames ν = (s.mapNames ν).push c := by
  obtain ⟨marked, tail⟩ := s
  cases marked with
  | nil => rfl
  | cons x marked => rfl

namespace Markers

variable {m : Markers} {ν : String → String} {text : String}

/-- A text with its references renamed is cut as before, with other names. -/
theorem split_renamedChars (hc : '\n' ∉ m.closing.toList)
    (hν : ∀ name, m.Marks name → m.Marks (ν name)) (cs : List Char) :
    m.split (m.renamedChars ν cs) = (m.split cs).mapNames ν := by
  induction cs using split.induct m with
  | case1 =>
    rw [renamedChars_nil, split]
    rfl
  | case2 c cs name rest found ih =>
    rw [renamedChars_of_referenceAt? found, split_append_mark (hν _ (marks_of_referenceAt? found)),
      ih, split_of_referenceAt? found]
    rfl
  | case3 c cs missing ih =>
    rw [renamedChars_of_not_referenceAt? missing,
      split_of_not_referenceAt? (referenceAt?_cons_renamedChars hc missing), ih,
      split_of_not_referenceAt? missing, Split.mapNames_push]

theorem references_renamedText (hc : '\n' ∉ m.closing.toList)
    (hν : ∀ name, m.Marks name → m.Marks (ν name)) (text : String) :
    m.references (m.renamedText ν text) = (m.references text).map ν := by
  rw [references, renamedText, String.toList_ofList, split_renamedChars hc hν]
  simp [Split.mapNames, references, Function.comp_def]

/-- Filling in a text with its references renamed is filling in the text, each name read as the
new one. -/
theorem filled_renamedText (hc : '\n' ∉ m.closing.toList)
    (hν : ∀ name, m.Marks name → m.Marks (ν name)) (text : String) (f : String → String) :
    m.filled (m.renamedText ν text) f = m.filled text (f ∘ ν) := by
  rw [filled, renamedText, String.toList_ofList, split_renamedChars hc hν]
  simp [Split.mapNames, filled, Function.comp_def]

/-- A text whose references keep their names stays as it is. -/
theorem renamedText_eq_self (h : ∀ name ∈ m.references text, ν name = name) :
    m.renamedText ν text = text := by
  have filled : m.renamedText ν text = m.filled text fun name => m.mark (ν name) := rfl
  rw [filled, filled_congr fun name hname => congrArg m.mark (h name hname), filled_mark]

theorem references_nil : m.references (String.ofList []) = [] := by
  rw [references, String.toList_ofList, split]
  rfl

theorem references_of_referenceAt? {c : Char} {cs name rest : List Char}
    (h : m.referenceAt? (c :: cs) = some (name, rest)) :
    m.references (String.ofList (c :: cs)) =
      String.ofList name :: m.references (String.ofList rest) := by
  simp [references, split_of_referenceAt? h]

theorem references_of_not_referenceAt? {c : Char} {cs : List Char}
    (h : m.referenceAt? (c :: cs) = none) :
    m.references (String.ofList (c :: cs)) = m.references (String.ofList cs) := by
  rw [references, String.toList_ofList, split_of_not_referenceAt? h, references,
    String.toList_ofList, Split.push]
  split
  · rename_i none
    rw [none]
  · rename_i gap name more some
    rw [some]
    rfl

/-- A text that refers to a name has its marker within. -/
theorem isInfix_mark {name : String} {cs : List Char} (h : name ∈ m.references (String.ofList cs)) :
    (m.mark name).toList <:+: cs := by
  induction cs using split.induct m with
  | case1 =>
    rw [references_nil] at h
    cases h
  | case2 c cs found rest hr ih =>
    have whole := mark_append_of_referenceAt? hr
    rw [references_of_referenceAt? hr, List.mem_cons] at h
    rw [whole]
    rcases h with rfl | h
    · exact (List.prefix_append _ _).isInfix
    · exact (ih h).trans (List.suffix_append _ _).isInfix
  | case3 c cs missing ih =>
    rw [references_of_not_referenceAt? missing] at h
    exact (ih h).trans (List.suffix_cons c cs).isInfix

/-- A marker in which its name is found marks it. -/
theorem marks_of_references {name : String} (h : name ∈ m.references (m.mark name)) :
    m.Marks name := by
  -- the name is found at the start: what comes after a character is too short for the marker
  rw [← String.ofList_toList (s := m.mark name)] at h
  unfold Marks
  generalize marker : (m.mark name).toList = cs at h ⊢
  have short : ∀ rest : List Char, rest.length < cs.length →
      name ∉ m.references (String.ofList rest) := by
    intro rest lt found
    have := (isInfix_mark found).length_le
    rw [marker] at this
    omega
  cases cs with
  | nil => exact absurd marker (m.toList_mark_ne name)
  | cons c cs =>
    cases found : m.referenceAt? (c :: cs) with
    | none =>
      rw [references_of_not_referenceAt? found] at h
      exact absurd h (short cs (Nat.lt_succ_self _))
    | some x =>
      obtain ⟨other, rest⟩ := x
      rw [references_of_referenceAt? found, List.mem_cons] at h
      rcases h with rfl | h
      · have whole := referenceAt?_eq_append found
        rw [← marker, toList_mark, String.toList_ofList] at whole
        have none_left := congrArg List.length whole
        simp only [List.length_append] at none_left
        rw [String.toList_ofList, List.eq_nil_of_length_eq_zero (l := rest) (by omega)]
      · exact absurd h (short rest (referenceAt?_length_lt found))

end Markers

end LayeredConfig
