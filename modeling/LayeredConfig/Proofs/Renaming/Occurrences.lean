import LayeredConfig.Proofs.Renaming.Replacing

/-!
# Renaming a reference by its marker

`renamed?` looks for the marker of a name and not for references to the name. A reference to the name
is an occurrence of its marker; an occurrence that is no reference to it begins inside a reference to
another name (`Within`), as `${a}` does in `${${a}`, which refers to `${a`.

Main statement: `renames_references_iff`. Renaming by the marker is renaming the references, whatever
the new name, iff no occurrence of the marker begins inside a reference to another name.
-/

namespace LayeredConfig

/-! ## Occurrences that are replaced -/

section Replacing

variable {old new cs : List Char}

/-- Something is replaced iff the old text occurs. -/
theorem replaceAll_count_ne_zero_iff (new : List Char) (hold : old ≠ []) :
    (replaceAll old new cs).2 ≠ 0 ↔ old <:+: cs := by
  induction cs with
  | nil =>
    rw [replaceAll_nil, List.infix_nil]
    exact ⟨fun h => absurd rfl h, fun h => absurd h hold⟩
  | cons c cs ih =>
    cases found : afterOpening? old (c :: cs) with
    | some rest =>
      rw [replaceAll_of_afterOpening? hold new found, afterOpening?_eq_some.1 found]
      exact iff_of_true (Nat.succ_ne_zero _) (List.prefix_append old rest).isInfix
    | none =>
      rw [replaceAll_of_not_afterOpening? new found, ih, List.infix_cons_iff]
      refine ⟨Or.inr, fun h => h.resolve_left ?_⟩
      rintro ⟨rest, whole⟩
      rw [afterOpening?_eq_some.2 whole.symm] at found
      cases found

/-- What is replaced first stands no further on than any occurrence. -/
theorem exists_replaceAll_eq (new : List Char) (hold : old ≠ []) {i : Nat}
    (h : (afterOpening? old (cs.drop i)).isSome) :
    ∃ front rest, front.length ≤ i ∧ (replaceAll old new cs).1 = front ++ (new ++ rest) := by
  induction cs generalizing i with
  | nil =>
    obtain ⟨rest, found⟩ := Option.isSome_iff_exists.1 h
    rw [List.drop_nil, afterOpening?_eq_some] at found
    exact absurd (List.append_eq_nil_iff.1 found.symm).1 hold
  | cons c cs ih =>
    cases found : afterOpening? old (c :: cs) with
    | some rest =>
      exact ⟨[], _, Nat.zero_le i, by rw [replaceAll_of_afterOpening? hold new found, List.nil_append]⟩
    | none =>
      cases i with
      | zero =>
        rw [List.drop_zero, found] at h
        cases h
      | succ i =>
        obtain ⟨front, rest, short, same⟩ := ih h
        refine ⟨c :: front, rest, Nat.succ_le_succ short, ?_⟩
        rw [replaceAll_of_not_afterOpening? new found, same, List.cons_append]

end Replacing

namespace Markers

variable {m : Markers} {text old new name : String} {cs : List Char}

theorem renamed?_isSome_iff (new : String) :
    (m.renamed? text old new).isSome ↔ (m.mark old).toList <:+: text.toList := by
  rw [← replaceAll_count_ne_zero_iff (m.mark new).toList (m.toList_mark_ne old), renamed?]
  dsimp only
  split
  · rename_i none
    exact iff_of_false Bool.false_ne_true (not_not.2 none)
  · rename_i some
    exact iff_of_true rfl some

theorem eq_of_renamed? {after : String} (h : m.renamed? text old new = some after) :
    after = String.ofList (replaceAll (m.mark old).toList (m.mark new).toList text.toList).1 := by
  rw [renamed?] at h
  dsimp only at h
  split at h
  · cases h
  · exact (Option.some.inj h).symm

/-! ## Occurrences inside other references -/

/-- The marker of a name occurs at a place. -/
def OccursAt (m : Markers) (name : String) (cs : List Char) (i : Nat) : Prop :=
  (afterOpening? (m.mark name).toList (cs.drop i)).isSome

instance (m : Markers) (name : String) (cs : List Char) (i : Nat) : Decidable (m.OccursAt name cs i) :=
  inferInstanceAs (Decidable (_ = true))

/-- An occurrence of the marker of a name begins inside a reference to another name. -/
def Within (m : Markers) (name : String) (cs : List Char) : Prop :=
  ∃ other ∈ m.references (String.ofList cs), other ≠ name ∧ ∃ start ∈ m.positions other cs,
    ∃ i < start + (m.mark other).toList.length, start < i ∧ m.OccursAt name cs i

instance (m : Markers) (name : String) (cs : List Char) : Decidable (m.Within name cs) :=
  inferInstanceAs (Decidable (∃ _ ∈ m.references (String.ofList cs), _))

theorem mem_references_of_mem_positions {k : Nat} (h : k ∈ m.positions name cs) :
    name ∈ m.references (String.ofList cs) := by
  have marked : ∀ (start : Nat) (marked : List (List Char × List Char)),
      k ∈ m.positionsIn name.toList start marked → ∃ gap, (gap, name.toList) ∈ marked := by
    intro start marked h
    induction marked generalizing start with
    | nil => cases h
    | cons x marked ih =>
      obtain ⟨gap, found⟩ := x
      rw [positionsIn] at h
      split at h
      · rename_i same
        exact ⟨gap, same ▸ List.mem_cons_self⟩
      · obtain ⟨gap, inside⟩ := ih _ h
        exact ⟨gap, List.mem_cons_of_mem _ inside⟩
  obtain ⟨gap, inside⟩ := marked 0 _ h
  rw [references, String.toList_ofList]
  exact List.mem_map.2 ⟨_, inside, String.ofList_toList⟩

/-- After a character that starts no reference nothing else lies within one. -/
theorem within_of_not_referenceAt? {c : Char} (h : m.referenceAt? (c :: cs) = none) :
    m.Within name (c :: cs) ↔ m.Within name cs := by
  unfold Within
  rw [references_of_not_referenceAt? h]
  refine exists_congr fun other => and_congr_right fun _ => and_congr_right fun _ => ?_
  rw [positions_of_not_referenceAt? h]
  simp only [List.mem_map]
  constructor
  · rintro ⟨_, ⟨start, inside, rfl⟩, i, short, after, occurs⟩
    obtain ⟨j, rfl⟩ := Nat.exists_eq_succ_of_ne_zero (Nat.ne_zero_of_lt after)
    exact ⟨start, inside, j, by omega, by omega, occurs⟩
  · rintro ⟨start, inside, j, short, after, occurs⟩
    exact ⟨start + 1, ⟨start, inside, rfl⟩, j + 1, by omega, by omega, occurs⟩

/-- From a reference on, an occurrence begins inside it, as one to another name, or inside a later
one. -/
theorem within_of_referenceAt? {c : Char} {found rest : List Char}
    (h : m.referenceAt? (c :: cs) = some (found, rest)) :
    m.Within name (c :: cs) ↔
      (String.ofList found ≠ name ∧ ∃ i < (m.mark (String.ofList found)).toList.length, 0 < i ∧
        m.OccursAt name (c :: cs) i) ∨ m.Within name rest := by
  have later : ∀ i, m.OccursAt name (c :: cs) (i + (m.mark (String.ofList found)).toList.length) ↔
      m.OccursAt name rest i := by
    intro i
    unfold OccursAt
    rw [mark_append_of_referenceAt? h, List.drop_append, List.drop_of_length_le (Nat.le_add_left _ _),
      List.nil_append, Nat.add_sub_cancel]
  constructor
  · rintro ⟨other, -, different, start, hstart, i, short, after, occurs⟩
    rw [positions_of_referenceAt? h, List.mem_append] at hstart
    rcases hstart with here | there
    · split at here
      · rename_i same
        obtain rfl := List.mem_singleton.1 here
        rw [← String.ofList_toList (s := other), ← same] at different short
        exact Or.inl ⟨different, i, by omega, after, occurs⟩
      · cases here
    · obtain ⟨k, hk, rfl⟩ := List.mem_map.1 there
      obtain ⟨j, rfl⟩ : ∃ j, i = j + (m.mark (String.ofList found)).toList.length :=
        ⟨i - (m.mark (String.ofList found)).toList.length, by omega⟩
      exact Or.inr ⟨other, mem_references_of_mem_positions hk, different, k, hk, j, by omega, by omega,
        (later j).1 occurs⟩
  · rintro (⟨different, i, short, after, occurs⟩ |
      ⟨other, inside, different, k, hk, j, short, after, occurs⟩)
    · refine ⟨_, ?_, different, 0, ?_, i, by omega, after, occurs⟩
      · rw [references_of_referenceAt? h]
        exact List.mem_cons_self
      · rw [positions_of_referenceAt? h, if_pos (String.toList_ofList).symm]
        exact List.mem_cons_self
    · refine ⟨other, ?_, different, k + (m.mark (String.ofList found)).toList.length, ?_,
        j + (m.mark (String.ofList found)).toList.length, by omega, by omega, (later j).2 occurs⟩
      · rw [references_of_referenceAt? h]
        exact List.mem_cons_of_mem _ inside
      · rw [positions_of_referenceAt? h]
        exact List.mem_append_right _ (List.mem_map_of_mem hk)

/-! ## Where every occurrence that is replaced is a reference -/

/-- Where no reference starts, a marker that reads as one does not occur. -/
theorem Marks.afterOpening?_eq_none (h : m.Marks name) (missing : m.referenceAt? cs = none) :
    afterOpening? (m.mark name).toList cs = none := by
  cases found : afterOpening? (m.mark name).toList cs with
  | none => rfl
  | some rest =>
    rw [afterOpening?_eq_some.1 found, h.referenceAt?_append] at missing
    cases missing

/-- Replacing the marker is renaming the references, each once. -/
theorem replaceAll_of_not_within (marks : m.Marks old) (new : String) (clear : ¬m.Within old cs) :
    replaceAll (m.mark old).toList (m.mark new).toList cs =
      (m.renamedChars (Function.update id old new) cs, (m.references (String.ofList cs)).count old) := by
  induction cs using split.induct m with
  | case1 =>
    rw [renamedChars_nil, replaceAll_nil, references_nil]
    rfl
  | case2 c cs found rest hr ih =>
    rw [within_of_referenceAt? hr, not_or] at clear
    have whole := mark_append_of_referenceAt? hr
    rw [renamedChars_of_referenceAt? hr, references_of_referenceAt? hr]
    by_cases same : String.ofList found = old
    · rw [whole, same, Function.update_self, List.count_cons_self,
        replaceAll_of_afterOpening? (m.toList_mark_ne old) _ (afterOpening?_append_self _ _), ih clear.2]
    · rw [Function.update_of_ne same, id, List.count_cons_of_ne same]
      have apart : ∀ i < (m.mark (String.ofList found)).toList.length,
          afterOpening? (m.mark old).toList ((c :: cs).drop i) = none := by
        intro i short
        rw [← Option.not_isSome_iff_eq_none]
        intro occurs
        rcases Nat.eq_zero_or_pos i with rfl | after
        · -- two references cannot start at one place
          obtain ⟨more, opened⟩ := Option.isSome_iff_exists.1 occurs
          rw [List.drop_zero, afterOpening?_eq_some] at opened
          rw [opened, marks.referenceAt?_append] at hr
          cases hr
          exact same String.ofList_toList
        · exact clear.1 ⟨same, i, short, after, occurs⟩
      rw [whole] at apart ⊢
      rw [replaceAll_append _ _ _ apart, ih clear.2]
  | case3 c cs missing ih =>
    rw [within_of_not_referenceAt? missing] at clear
    rw [renamedChars_of_not_referenceAt? missing, references_of_not_referenceAt? missing,
      replaceAll_of_not_afterOpening? _ (marks.afterOpening?_eq_none missing), ih clear]

/-! ## A name that shows the occurrences that are no references -/

/-- The name of one character, repeated. -/
def repeated (c : Char) (k : Nat) : String := String.ofList (List.replicate k c)

/-- A repeated character that does not begin the closing, nor ends the line, is a name. -/
theorem marks_repeated {c d : Char} {closing : List Char} (hc : m.closing.toList = d :: closing)
    (other : c ≠ d) (inLine : c ≠ '\n') {k : Nat} (some : 0 < k) : m.Marks (repeated c k) := by
  have closed : ∀ j, uptoClosing? (d :: closing) (List.replicate j c ++ d :: closing) =
      .some (List.replicate j c, []) := by
    intro j
    induction j with
    | zero => rw [List.replicate_zero, List.nil_append, uptoClosing?_cons, afterOpening?_self]
    | succ j ih =>
      have unclosed : afterOpening? (d :: closing) (c :: (List.replicate j c ++ d :: closing)) = none :=
        if_neg other.symm
      rw [List.replicate_succ, List.cons_append, uptoClosing?_cons, unclosed]
      simp only [if_neg inLine, ih, Option.map_some]
  obtain ⟨j, rfl⟩ := Nat.exists_eq_succ_of_ne_zero (Nat.ne_of_gt some)
  rw [Marks, toList_mark, referenceAt?, afterOpening?_append_self, Option.bind_some, repeated,
    String.toList_ofList, hc]
  exact nameAt?_eq_some.2 ⟨c, _, _, rfl, rfl, inLine, closed j⟩

/-- The run in the marker of a repeated character, and the first character behind it. -/
theorem getElem?_append_mark_repeated {c d : Char} {closing : List Char}
    (hc : m.closing.toList = d :: closing) (front rest : List Char) {j k : Nat} (within : j ≤ k) :
    (front ++ ((m.mark (repeated c k)).toList ++ rest))[front.length + (m.opening.toList.length + j)]? =
      some (if j < k then c else d) := by
  rw [toList_mark, repeated, String.toList_ofList, hc, List.append_assoc,
    List.getElem?_append_right (Nat.le_add_right _ _), Nat.add_sub_cancel_left,
    List.getElem?_append_right (Nat.le_add_right _ _), Nat.add_sub_cancel_left, List.append_assoc]
  split
  · rename_i inside
    rw [List.getElem?_append_left (by rwa [List.length_replicate]), List.getElem?_replicate_of_lt inside]
  · obtain rfl : j = k := by omega
    rw [List.getElem?_append_right (List.length_replicate ▸ Nat.le_refl j), List.length_replicate,
      Nat.sub_self]
    rfl

/-- Two texts with the marker of a repeated character are equal only if the run of the one does not end
within that of the other. -/
theorem le_of_append_mark_eq {c d : Char} {closing : List Char} (hc : m.closing.toList = d :: closing)
    (other : c ≠ d) {front front' rest rest' : List Char} {k : Nat}
    (same : front ++ ((m.mark (repeated c k)).toList ++ rest) =
      front' ++ ((m.mark (repeated c k)).toList ++ rest'))
    (meets : front'.length ≤ front.length + k) : front'.length ≤ front.length := by
  by_contra before
  -- behind the first run there is the closing in the one text and the run in the other
  have behind := getElem?_append_mark_repeated (c := c) hc front rest (Nat.le_refl k)
  have inside := getElem?_append_mark_repeated (c := c) hc front' rest'
    (j := front.length + k - front'.length) (k := k) (by omega)
  rw [if_neg (Nat.lt_irrefl k), same] at behind
  rw [if_pos (by omega), show front'.length + (m.opening.toList.length +
    (front.length + k - front'.length)) = front.length + (m.opening.toList.length + k) by omega,
    behind] at inside
  exact other (Option.some.inj inside).symm

/-- Where renaming changes a text, it changes a first reference. -/
theorem renamedChars_update_cases (m : Markers) (old new : String) (cs : List Char) :
    m.renamedChars (Function.update id old new) cs = cs ∨
      ∃ front rest, front.length < cs.length ∧
        m.renamedChars (Function.update id old new) cs = front ++ ((m.mark new).toList ++ rest) := by
  induction cs using split.induct m with
  | case1 => exact Or.inl renamedChars_nil
  | case2 c cs found rest hr ih =>
    have whole := mark_append_of_referenceAt? hr
    rw [renamedChars_of_referenceAt? hr]
    by_cases same : String.ofList found = old
    · rw [same, Function.update_self]
      exact Or.inr ⟨[], _, Nat.zero_lt_succ _, rfl⟩
    · rw [Function.update_of_ne same, id, whole]
      rcases ih with kept | ⟨front, rest', short, changed⟩
      · exact Or.inl (by rw [kept])
      · refine Or.inr ⟨(m.mark (String.ofList found)).toList ++ front, rest', ?_, by
          rw [changed, List.append_assoc]⟩
        simp only [List.length_append]
        omega
  | case3 c cs missing ih =>
    rw [renamedChars_of_not_referenceAt? missing]
    rcases ih with kept | ⟨front, rest, short, changed⟩
    · exact Or.inl (congrArg (c :: ·) kept)
    · exact Or.inr ⟨c :: front, rest, Nat.succ_lt_succ short, congrArg (c :: ·) changed⟩

/-- An occurrence inside another reference is replaced before the renaming of the references would
change anything there, which a name longer than the text shows. -/
theorem replaceAll_ne_of_within (marks : m.Marks old) {c d : Char} {closing : List Char}
    (hc : m.closing.toList = d :: closing) (other : c ≠ d) {k : Nat} (long : cs.length < k)
    (h : m.Within old cs) :
    (replaceAll (m.mark old).toList (m.mark (repeated c k)).toList cs).1 ≠
      m.renamedChars (Function.update id old (repeated c k)) cs := by
  induction cs using split.induct m with
  | case1 =>
    obtain ⟨_, inside, -⟩ := h
    rw [references_nil] at inside
    cases inside
  | case2 a cs found rest hr ih =>
    have whole := mark_append_of_referenceAt? hr
    have shorter := referenceAt?_length_lt hr
    rw [within_of_referenceAt? hr] at h
    rw [renamedChars_of_referenceAt? hr]
    by_cases same : String.ofList found = old
    · have later := h.resolve_left fun inside => inside.1 same
      rw [whole, same, Function.update_self,
        replaceAll_of_afterOpening? (m.toList_mark_ne old) _ (afterOpening?_append_self _ _)]
      exact fun eq => ih (by omega) later (List.append_cancel_left eq)
    rw [Function.update_of_ne same, id]
    by_cases inside : ∃ i < (m.mark (String.ofList found)).toList.length, m.OccursAt old (a :: cs) i
    · obtain ⟨i, short, occurs⟩ := inside
      obtain ⟨front, after, before, replaced⟩ :=
        exists_replaceAll_eq (m.mark (repeated c k)).toList (m.toList_mark_ne old) occurs
      rw [replaced]
      have length := congrArg List.length whole
      rw [List.length_append] at length
      rcases m.renamedChars_update_cases old (repeated c k) rest with
        kept | ⟨front', after', short', changed⟩
      · rw [kept, ← whole]
        intro eq
        have longer := congrArg List.length eq
        simp only [toList_mark, repeated, String.toList_ofList, List.length_append,
          List.length_replicate] at longer
        omega
      · rw [changed]
        intro eq
        rw [← List.append_assoc (m.mark (String.ofList found)).toList] at eq
        have meets : ((m.mark (String.ofList found)).toList ++ front').length ≤ front.length + k := by
          rw [List.length_append]
          omega
        have := le_of_append_mark_eq hc other eq meets
        rw [List.length_append] at this
        omega
    · have apart : ∀ i < (m.mark (String.ofList found)).toList.length,
          afterOpening? (m.mark old).toList ((a :: cs).drop i) = none := fun i short =>
        Option.not_isSome_iff_eq_none.1 fun occurs => inside ⟨i, short, occurs⟩
      have later := h.resolve_left (by
        rintro ⟨-, i, short, -, occurs⟩
        exact inside ⟨i, short, occurs⟩)
      rw [whole] at apart
      rw [whole, replaceAll_append _ _ _ apart]
      exact fun eq => ih (by omega) later (List.append_cancel_left eq)
  | case3 a cs missing ih =>
    rw [within_of_not_referenceAt? missing] at h
    rw [renamedChars_of_not_referenceAt? missing,
      replaceAll_of_not_afterOpening? _ (marks.afterOpening?_eq_none missing)]
    exact fun same => ih (Nat.lt_of_succ_lt long) h (List.cons.inj same).2

/-- **Renaming by the marker.** Renaming the marker of a name renames the references to the name and
nothing else, under every new name, iff no occurrence of the marker begins inside a reference to
another name. -/
theorem renamed?_eq_iff (marks : m.Marks old) :
    (∀ new, m.Marks new → m.renamed? text old new =
        if old ∈ m.references text then some (m.renamedText (Function.update id old new) text)
        else none) ↔ ¬m.Within old text.toList := by
  constructor
  · intro contract within
    obtain ⟨d, closing, hc⟩ := List.exists_cons_of_ne_nil m.closing_toList_ne
    obtain ⟨c, other, inLine⟩ : ∃ c : Char, c ≠ d ∧ c ≠ '\n' := by
      by_cases same : d = 'a'
      · exact ⟨'b', by rw [same]; decide, by decide⟩
      · exact ⟨'a', Ne.symm same, by decide⟩
    have differ := replaceAll_ne_of_within marks hc other (Nat.lt_succ_self _) within
    have renamed := contract _ (marks_repeated hc other inLine (Nat.succ_pos text.toList.length))
    have occurs : (m.mark old).toList <:+: text.toList := by
      obtain ⟨_, -, -, _, -, i, -, -, occurs⟩ := within
      obtain ⟨rest, found⟩ := Option.isSome_iff_exists.1 occurs
      have whole := List.take_append_drop i text.toList
      rw [afterOpening?_eq_some.1 found] at whole
      exact ⟨text.toList.take i, rest, by rw [List.append_assoc, whole]⟩
    split at renamed
    · have same := congrArg String.toList (eq_of_renamed? renamed)
      rw [renamedText, String.toList_ofList, String.toList_ofList] at same
      exact differ same.symm
    · rw [← renamed?_isSome_iff (repeated c _), renamed] at occurs
      cases occurs
  · intro clear new _
    have replaced := replaceAll_of_not_within marks new clear
    rw [String.ofList_toList] at replaced
    rw [renamed?, replaced, renamedText]
    dsimp only
    by_cases referred : old ∈ m.references text
    · rw [if_neg (Nat.ne_of_gt (List.count_pos_iff.2 referred)), if_pos referred]
    · rw [if_pos (List.count_eq_zero.2 referred), if_neg referred]

/-- A name is one that its marker refers to, and nothing else. -/
theorem marks_iff : m.Marks name ↔ m.references (m.mark name) = [name] := by
  constructor
  · intro marks
    have cut := split_append_mark marks []
    rw [List.append_nil, split] at cut
    rw [references, cut]
    exact congrArg ([·]) String.ofList_toList
  · exact fun h => marks_of_references (h ▸ List.mem_singleton_self name)

/-- **Renaming references and reading them.** For markers whose closing has no line break, a text and
a name that reads as itself in its marker: under every new name of this kind the text is renamed iff it
refers to the name, and then all that changes is that its references to the old name are references to
the new one, in their places. This holds of a text iff no occurrence of the marker of the name begins
inside a reference to another name. -/
theorem renames_references_iff (closing : '\n' ∉ m.closing.toList)
    (marked : m.references (m.mark old) = [old]) :
    (∀ new, m.references (m.mark new) = [new] →
      ((m.renamed? text old new).isSome ↔ old ∈ m.references text) ∧
        ∀ after, m.renamed? text old new = some after →
          after = m.renamedText (Function.update id old new) text ∧
            m.references after = (m.references text).map (Function.update id old new)) ↔
      ¬m.Within old text.toList := by
  simp only [← marks_iff] at marked ⊢
  rw [← renamed?_eq_iff marked]
  refine forall₂_congr fun new marks => ?_
  have renames : m.references (m.renamedText (Function.update id old new) text) =
      (m.references text).map (Function.update id old new) := by
    refine references_renamedText closing (fun name hname => ?_) text
    by_cases same : name = old
    · rw [same, Function.update_self]
      exact marks
    · rw [Function.update_of_ne same]
      exact hname
  constructor
  · rintro ⟨referred, changed⟩
    cases renamed : m.renamed? text old new with
    | none =>
      rw [renamed] at referred
      rw [if_neg fun h => by cases referred.2 h]
    | some after =>
      rw [renamed] at referred
      rw [if_pos (referred.1 rfl), (changed after renamed).1]
  · intro contract
    rw [contract]
    split
    · rename_i referred
      refine ⟨iff_of_true rfl referred, fun after same => ?_⟩
      obtain rfl := Option.some.inj same
      exact ⟨rfl, renames⟩
    · rename_i absent
      exact ⟨iff_of_false Bool.false_ne_true absent, nofun⟩

/-- Two references to one name with a longer name between them. -/
theorem renames_references_iff_ports :
    let text := "$\x7bport\x7d $\x7bportal\x7d $\x7bport\x7d"
    let after := "$\x7btcp\x7d $\x7bportal\x7d $\x7btcp\x7d"
    ¬standard.Within "port" text.toList ∧ standard.renamed? text "port" "tcp" = some after ∧
      standard.references after = ["tcp", "portal", "tcp"] := by
  intro text after
  have clear : ¬standard.Within "port" text.toList := by decide +kernel
  have renamed : standard.renamed? text "port" "tcp" = some after := by decide +kernel
  have names : standard.references text = ["port", "portal", "port"] := by decide +kernel
  obtain ⟨-, changed⟩ := (renames_references_iff (m := standard) (by decide +kernel)
    (by decide +kernel)).2 clear "tcp" (by decide +kernel)
  refine ⟨clear, renamed, ?_⟩
  rw [(changed after renamed).2, names]
  decide

/-- Markers whose closing begins with a line break. -/
def lineBreakClosing : Markers where
  opening := "o\n"
  closing := "\nx"
  opening_ne := by decide
  closing_ne := by decide

/-- A marker inside a longer name is replaced though the text has no reference to the name, so the
reference to the longer name changes. And where the closing begins with a line break, a new name can
close an opening before it. -/
theorem renamed_without_reference :
    ((∀ name ∈ ["a", "b"], standard.references (standard.mark name) = [name]) ∧
        standard.references "$\x7b$\x7ba\x7d" = ["$\x7ba"] ∧
        standard.renamed? "$\x7b$\x7ba\x7d" "a" "b" = some "$\x7b$\x7bb\x7d") ∧
      (∀ name ∈ ["yz", "xy"], lineBreakClosing.references (lineBreakClosing.mark name) = [name]) ∧
        lineBreakClosing.references "o\nabo\nyz\nx" = ["yz"] ∧
        lineBreakClosing.renamed? "o\nabo\nyz\nx" "yz" "xy" = some "o\nabo\nxy\nx" ∧
        lineBreakClosing.references "o\nabo\nxy\nx" = ["abo"] := by
  decide +kernel

end Markers

end LayeredConfig
