import LayeredConfig.Proofs.Gaps

/-!
# Cutting a text at its references

A text is its gaps with the markers of its names between them (`interleaved`). `Cut` says what makes
such a list of gaps and names the one that a text is cut into: the names are words of one line, each
closed by the first closing behind its first character, and no gap has a reference of its own.

Substituting is asking for each name in turn and putting the answers between the gaps
(`substituteM_eq`), whatever else asking does.

Main statement: `cut_exact`.
-/

namespace LayeredConfig

/-- The first of the texts, then by turns one of the values and one more of the texts. -/
def interleaved : List String → List String → String
  | [], _ => ""
  | gap :: gaps, [] => gap ++ interleaved gaps []
  | gap :: gaps, value :: values => gap ++ (value ++ interleaved gaps values)

@[simp] theorem interleaved_cons_cons (gap value : String) (gaps values : List String) :
    interleaved (gap :: gaps) (value :: values) = gap ++ (value ++ interleaved gaps values) := rfl

@[simp] theorem interleaved_singleton (gap : String) : interleaved [gap] [] = gap :=
  String.append_empty

/-- What stands before the first of the texts stands before all. -/
theorem interleaved_append (front gap : String) (gaps values : List String) :
    interleaved ((front ++ gap) :: gaps) values = front ++ interleaved (gap :: gaps) values := by
  cases values <;> simp only [interleaved, String.append_assoc]

/-- A text is put together up to a value, from the value, and from what comes behind it. -/
theorem interleaved_eq_append {gaps values : List String} (long : values.length < gaps.length)
    {i : Nat} {value : String} (hi : values[i]? = some value) :
    interleaved gaps values =
      interleaved (gaps.take (i + 1)) (values.take i) ++
        (value ++ interleaved (gaps.drop (i + 1)) (values.drop (i + 1))) := by
  induction values generalizing gaps i with
  | nil => cases hi
  | cons v values ih =>
    obtain - | ⟨gap, gaps⟩ := gaps
    · cases long
    · cases i with
      | zero =>
        cases hi
        simp
      | succ i =>
        have rest := ih (Nat.lt_of_succ_lt_succ long) hi
        simp only [List.take_succ_cons, List.drop_succ_cons, interleaved_cons_cons, rest,
          String.append_assoc]

/-! ## The first closing -/

/-- What is found up to a closing is no longer than what comes before any other closing. -/
theorem length_le_of_uptoClosing? {closing text name rest : List Char}
    (found : uptoClosing? closing text = some (name, rest)) {front back : List Char}
    (other : text = front ++ (closing ++ back)) : name.length ≤ front.length := by
  induction text generalizing name front with
  | nil => cases found
  | cons c text ih =>
    rw [uptoClosing?_cons] at found
    cases front with
    | nil =>
      have here : afterOpening? closing (c :: text) = some back := afterOpening?_eq_some.2 other
      rw [here] at found
      cases found
      exact Nat.le_refl 0
    | cons d front =>
      have later : text = front ++ (closing ++ back) := (List.cons.inj other).2
      split at found
      · cases found
        exact Nat.zero_le _
      · split at found
        · cases found
        · obtain ⟨⟨name', rest'⟩, found', same⟩ := Option.map_eq_some_iff.1 found
          cases same
          exact Nat.succ_le_succ (ih found' later)

namespace Markers

variable {m : Markers} {text : String}

/-- The gaps between the references of a text. -/
def gaps (m : Markers) (text : String) : List String :=
  (m.split text.toList).gaps.map String.ofList

/-- The gaps and names that a text is cut into at its references. -/
structure Cut (m : Markers) (text : String) (gaps names : List String) : Prop where
  count : gaps.length = names.length + 1
  whole : text = interleaved gaps (names.map m.mark)
  name : ∀ name ∈ names, name ≠ "" ∧ '\n' ∉ name.toList
  /-- No closing occurs earlier behind the first character of a name than the one that ends it. -/
  closed : ∀ i name, names[i]? = some name → ∀ front back : List Char,
    name.toList.tail ++ (m.closing.toList ++
        (interleaved (gaps.drop (i + 1)) ((names.drop (i + 1)).map m.mark)).toList) =
      front ++ (m.closing.toList ++ back) →
    name.toList.tail.length ≤ front.length
  /-- A marker and the name within it begin and end between two characters of the text. -/
  boundaries : ∀ i name, names[i]? = some name →
    let front := interleaved (gaps.take (i + 1)) ((names.take i).map m.mark)
    ∀ part ∈ [front, front ++ m.opening, front ++ (m.opening ++ name), front ++ m.mark name],
      part.rawEndPos.IsValid text
  gap : ∀ gap ∈ gaps, m.references gap = []

/-! ## One reference after the other -/

theorem gaps_nil : m.gaps (String.ofList []) = [""] := by
  rw [gaps, String.toList_ofList, split]
  rfl

theorem gaps_of_referenceAt? {c : Char} {cs name rest : List Char}
    (h : m.referenceAt? (c :: cs) = some (name, rest)) :
    m.gaps (String.ofList (c :: cs)) = "" :: m.gaps (String.ofList rest) := by
  rw [gaps, gaps, String.toList_ofList, String.toList_ofList, split_of_referenceAt? h]
  rfl

theorem gaps_of_not_referenceAt? {c : Char} {cs : List Char}
    (h : m.referenceAt? (c :: cs) = none) :
    ∃ gap more, m.gaps (String.ofList cs) = String.ofList gap :: more ∧
      m.gaps (String.ofList (c :: cs)) = String.ofList (c :: gap) :: more := by
  obtain ⟨gap, more, same, pushed⟩ := (m.split cs).gaps_push c
  refine ⟨gap, more.map String.ofList, ?_, ?_⟩
  · rw [gaps, String.toList_ofList, same, List.map_cons]
  · rw [gaps, String.toList_ofList, split_of_not_referenceAt? h, pushed, List.map_cons]

theorem length_gaps (m : Markers) (text : String) :
    (m.gaps text).length = (m.references text).length + 1 := by
  simp [gaps, references, Split.gaps]

/-- No gap has a reference of its own. -/
theorem references_of_mem_gaps {gap : String} (h : gap ∈ m.gaps text) : m.references gap = [] := by
  obtain ⟨cs, inside, rfl⟩ := List.mem_map.1 h
  by_contra some
  obtain ⟨name, stands⟩ := references_ne_nil_iff.1 some
  rw [String.toList_ofList] at stands
  exact not_standsIn_gap name inside stands

theorem interleaved_gaps_mark (m : Markers) (text : String) :
    interleaved (m.gaps text) ((m.references text).map m.mark) = text := by
  have lossless : ∀ cs : List Char, interleaved (m.gaps (String.ofList cs))
      ((m.references (String.ofList cs)).map m.mark) = String.ofList cs := by
    intro cs
    induction cs using split.induct m with
    | case1 =>
      rw [gaps_nil, references_nil]
      rfl
    | case2 c cs name rest found ih =>
      have whole := mark_append_of_referenceAt? found
      rw [gaps_of_referenceAt? found, references_of_referenceAt? found, List.map_cons,
        interleaved_cons_cons, ih, whole, String.ofList_append, String.ofList_toList,
        String.empty_append]
    | case3 c cs missing ih =>
      obtain ⟨gap, more, same, pushed⟩ := gaps_of_not_referenceAt? missing
      have cons : ∀ l : List Char, String.ofList (c :: l) = String.singleton c ++ String.ofList l :=
        @String.ofList_append [c]
      rw [pushed, references_of_not_referenceAt? missing, cons, interleaved_append, ← same, ih, cons]
  have here := lossless text.toList
  rwa [String.ofList_toList] at here

/-- Each name is closed by the first closing behind its first character. -/
theorem length_le_of_references {i : Nat} {name : String} (hi : (m.references text)[i]? = some name)
    {front back : List Char}
    (other : name.toList.tail ++ (m.closing.toList ++ (interleaved ((m.gaps text).drop (i + 1))
        (((m.references text).drop (i + 1)).map m.mark)).toList) =
      front ++ (m.closing.toList ++ back)) :
    name.toList.tail.length ≤ front.length := by
  have closed : ∀ (cs : List Char) (i : Nat) (name : String),
      (m.references (String.ofList cs))[i]? = some name →
      ∃ rest, uptoClosing? m.closing.toList (name.toList.tail ++ (m.closing.toList ++
        (interleaved ((m.gaps (String.ofList cs)).drop (i + 1))
          (((m.references (String.ofList cs)).drop (i + 1)).map m.mark)).toList)) =
        some (name.toList.tail, rest) := by
    intro cs
    induction cs using split.induct m with
    | case1 =>
      intro i name hi
      rw [references_nil] at hi
      cases hi
    | case2 c cs name' rest found ih =>
      intro i name hi
      rw [references_of_referenceAt? found] at hi ⊢
      rw [gaps_of_referenceAt? found]
      cases i with
      | zero =>
        cases hi
        rw [List.drop_succ_cons, List.drop_zero, List.drop_succ_cons, List.drop_zero,
          interleaved_gaps_mark, String.toList_ofList, String.toList_ofList]
        obtain ⟨body, opened, named⟩ := Option.bind_eq_some_iff.1 found
        obtain ⟨d, text', tail, rfl, rfl, -, upto⟩ := nameAt?_eq_some.1 named
        have whole := uptoClosing?_eq_append upto
        rw [List.append_assoc] at whole
        exact ⟨rest, by rw [List.tail_cons, ← whole, upto]⟩
      | succ i => exact ih i name hi
    | case3 c cs missing ih =>
      intro i name hi
      obtain ⟨gap, more, same, pushed⟩ := gaps_of_not_referenceAt? missing
      rw [references_of_not_referenceAt? missing] at hi ⊢
      have later := ih i name hi
      rw [same] at later
      rwa [pushed]
  obtain ⟨rest, found⟩ := closed text.toList i name (by rwa [String.ofList_toList])
  rw [String.ofList_toList] at found
  exact length_le_of_uptoClosing? found other

theorem cut_gaps (m : Markers) (text : String) : m.Cut text (m.gaps text) (m.references text) where
  count := m.length_gaps text
  whole := (m.interleaved_gaps_mark text).symm
  name name inside := by
    rw [← String.ofList_toList (s := text)] at inside
    have marks := marks_of_mem_references inside
    exact ⟨marks.ne_empty, (name_of_referenceAt? marks).2⟩
  closed i name hi front back other := length_le_of_references hi other
  boundaries i name hi := by
    intro front part inside
    have long : ((m.references text).map m.mark).length < (m.gaps text).length := by
      rw [List.length_map, length_gaps]
      exact Nat.lt_succ_self _
    have marked : ((m.references text).map m.mark)[i]? = some (m.mark name) := by
      rw [List.getElem?_map, hi, Option.map_some]
    obtain ⟨back, whole⟩ : ∃ back, text = front ++ (m.mark name ++ back) := by
      have whole := interleaved_eq_append long marked
      rw [interleaved_gaps_mark, ← List.map_take] at whole
      exact ⟨_, whole⟩
    -- each of the parts is what the text starts with
    obtain ⟨more, same⟩ : ∃ more, text = part ++ more := by
      simp only [List.mem_cons, List.not_mem_nil, or_false] at inside
      rcases inside with rfl | rfl | rfl | rfl
      · exact ⟨m.mark name ++ back, whole⟩
      · exact ⟨name ++ (m.closing ++ back), by simp only [whole, mark, String.append_assoc]⟩
      · exact ⟨m.closing ++ back, by simp only [whole, mark, String.append_assoc]⟩
      · exact ⟨back, by rw [whole, String.append_assoc]⟩
    exact String.Pos.Raw.isValid_iff_exists_append.2 ⟨part, more, same, rfl⟩
  gap gap inside := references_of_mem_gaps inside

/-! ## Asking for the names -/

section Asking

variable {μ : Type → Type} [Monad μ] [LawfulMonad μ]

/-- A gap and an answer are put before what is made of the parts behind them. -/
theorem joined_cons (parts : μ (List (List Char))) (gap tail : List Char) (value : String) :
    (do pure (String.ofList (((gap ++ value.toList) :: (← parts)).flatten ++ tail))) =
      (fun behind => String.ofList gap ++ (value ++ behind)) <$>
        (do pure (String.ofList ((← parts).flatten ++ tail))) := by
  simp only [map_bind, map_pure, List.flatten_cons, List.append_assoc, String.ofList_append,
    String.ofList_toList]

/-- Substituting asks for the names in order and puts the answers between the gaps. Asking may do
anything else that a step can do, such as fail or change a state. -/
theorem substituteM_eq (m : Markers) (text : String) (resolve : String → μ String) :
    m.substituteM text resolve =
      interleaved (m.gaps text) <$> (m.references text).mapM resolve := by
  unfold substituteM gaps references Split.gaps
  generalize m.split text.toList = s
  obtain ⟨marked, tail⟩ := s
  dsimp only
  induction marked with
  | nil => simp
  | cons x marked ih =>
    obtain ⟨gap, name⟩ := x
    simp only [List.mapM_cons, bind_assoc, pure_bind, List.map_cons, map_bind, map_pure,
      List.cons_append, interleaved_cons_cons]
    apply bind_congr
    intro value
    rw [joined_cons, ih, Functor.map_map, map_eq_pure_bind]

end Asking

/-- If a name is refused and none before it is, the refusal is what comes of the substitution. -/
theorem substitute_eq_error {ε : Type} {resolve : String → Except ε String} {front back : List String}
    {name : String} {values : List String} {e : ε}
    (names : m.references text = front ++ name :: back) (answered : front.map resolve = values.map .ok)
    (refused : resolve name = .error e) : m.substitute text resolve = .error e := by
  have asked : (m.references text).mapM resolve = .error e := by
    rw [names, List.mapM_append, Outcome.mapM_eq_ok.2 answered, List.mapM_cons, refused]
    rfl
  rw [substitute, substituteM_eq, asked]
  rfl

/-- The first character of a name may be a closing, and an opening that nothing closes in its line
belongs to a gap. -/
example : standard.references "$\x7b\x7dx\x7d $\x7ba\nb\x7d $\x7bok\x7d" = ["\x7dx", "ok"] ∧
    standard.gaps "$\x7b\x7dx\x7d $\x7ba\nb\x7d $\x7bok\x7d" = ["", " $\x7ba\nb\x7d ", ""] := by
  decide +kernel

end Markers

end LayeredConfig
