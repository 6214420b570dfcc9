import LayeredConfig.Proofs.Renaming.Text
import Mathlib.Logic.Function.Basic

/-!
# Markers replaced in texts

Replacing the marker of a name by another looks at characters, not at references. Where the marker
occurs as a reference only (`OnlyReferences`), it is the renaming of the references
(`getD_renamed?`).
-/

namespace LayeredConfig

namespace Markers

variable {m : Markers} {text : String}

/-! ## Markers that occur as references only -/

/-- The positions of the references to a name among the gaps and names of a text, the first gap
standing at `start`. -/
def positionsIn (m : Markers) (name : List Char) (start : Nat) :
    List (List Char × List Char) → List Nat
  | [] => []
  | (gap, found) :: more =>
    let here := start + gap.length
    let later := m.positionsIn name (here + (m.mark (String.ofList found)).toList.length) more
    if found = name then here :: later else later

/-- The positions at which the references to a name start. -/
def positions (m : Markers) (name : String) (cs : List Char) : List Nat :=
  m.positionsIn name.toList 0 (m.split cs).marked

/-- Wherever the marker of a name occurs in a text, a reference to the name starts. -/
def OnlyReferences (m : Markers) (name : String) (cs : List Char) : Prop :=
  ∀ i < cs.length, (afterOpening? (m.mark name).toList (cs.drop i)).isSome → i ∈ m.positions name cs

instance (m : Markers) (name : String) (cs : List Char) : Decidable (m.OnlyReferences name cs) :=
  inferInstanceAs (Decidable (∀ i < cs.length, _ → i ∈ m.positions name cs))

theorem positionsIn_add (m : Markers) (name : List Char) (start k : Nat)
    (marked : List (List Char × List Char)) :
    m.positionsIn name (start + k) marked = (m.positionsIn name start marked).map (· + k) := by
  induction marked generalizing start with
  | nil => rfl
  | cons x marked ih =>
    obtain ⟨gap, found⟩ := x
    rw [positionsIn, positionsIn, Nat.add_right_comm start k, Nat.add_right_comm _ k, ih]
    split <;> rfl

variable {name old new : String}

theorem positions_of_referenceAt? {c : Char} {cs found rest : List Char}
    (h : m.referenceAt? (c :: cs) = some (found, rest)) :
    m.positions name (c :: cs) =
      (if found = name.toList then [0] else []) ++
        (m.positions name rest).map (· + (m.mark (String.ofList found)).toList.length) := by
  rw [positions, split_of_referenceAt? h, positionsIn, positionsIn_add]
  split <;> rfl

theorem positions_of_not_referenceAt? {c : Char} {cs : List Char}
    (h : m.referenceAt? (c :: cs) = none) :
    m.positions name (c :: cs) = (m.positions name cs).map (· + 1) := by
  rw [positions, split_of_not_referenceAt? h, positions, ← positionsIn_add, Split.push]
  split
  · rename_i none
    rw [none]
    rfl
  · rename_i gap found more some
    rw [some, positionsIn, positionsIn, List.length_cons, Nat.add_comm gap.length,
      ← Nat.add_assoc]

/-- After a reference, a text whose markers are references goes on as such a text. -/
theorem OnlyReferences.of_referenceAt? {c : Char} {cs found rest : List Char}
    (h : m.OnlyReferences name (c :: cs)) (hr : m.referenceAt? (c :: cs) = some (found, rest)) :
    m.OnlyReferences name rest := by
  intro i hi occurs
  have whole := mark_append_of_referenceAt? hr
  have long := congrArg List.length whole
  rw [List.length_append] at long
  have there := h ((m.mark (String.ofList found)).toList.length + i) (by omega)
    (by rw [whole, List.drop_append, List.drop_of_length_le (by omega), List.nil_append,
          Nat.add_sub_cancel_left]; exact occurs)
  rw [positions_of_referenceAt? hr, List.mem_append] at there
  have pos : 0 < (m.mark (String.ofList found)).toList.length :=
    List.length_pos_of_ne_nil (m.toList_mark_ne _)
  rcases there with there | there
  · split at there
    · rw [List.mem_singleton] at there
      omega
    · cases there
  · obtain ⟨j, hj, same⟩ := List.mem_map.1 there
    obtain rfl : j = i := by omega
    exact hj

theorem OnlyReferences.of_not_referenceAt? {c : Char} {cs : List Char}
    (h : m.OnlyReferences name (c :: cs)) (hr : m.referenceAt? (c :: cs) = none) :
    afterOpening? (m.mark name).toList (c :: cs) = none ∧ m.OnlyReferences name cs := by
  rw [OnlyReferences, positions_of_not_referenceAt? hr] at h
  constructor
  · by_contra occurs
    obtain ⟨j, -, same⟩ := List.mem_map.1
      (h 0 (Nat.zero_lt_succ _) (Option.isSome_iff_ne_none.2 occurs))
    exact Nat.succ_ne_zero j same
  · intro i hi occurs
    obtain ⟨j, hj, same⟩ := List.mem_map.1 (h (i + 1) (Nat.succ_lt_succ hi) occurs)
    obtain rfl : j = i := Nat.succ.inj same
    exact hj

/-- Within a reference to another name the marker does not occur. -/
theorem OnlyReferences.not_within {c : Char} {cs found rest : List Char}
    (h : m.OnlyReferences name (c :: cs)) (hr : m.referenceAt? (c :: cs) = some (found, rest))
    (other : found ≠ name.toList) {i : Nat}
    (hi : i < (m.mark (String.ofList found)).toList.length) :
    afterOpening? (m.mark name).toList ((c :: cs).drop i) = none := by
  by_contra occurs
  have whole := congrArg List.length (referenceAt?_eq_append hr)
  rw [toList_mark, String.toList_ofList] at hi
  simp only [List.length_append] at whole hi
  have there := h i (by omega) (Option.isSome_iff_ne_none.2 occurs)
  rw [positions_of_referenceAt? hr, if_neg other, List.nil_append] at there
  obtain ⟨j, -, same⟩ := List.mem_map.1 there
  rw [toList_mark, String.toList_ofList] at same
  simp only [List.length_append] at same
  omega

/-! ## Replacing a marker -/

end Markers

theorem replaceAll_nil (old new : List Char) : replaceAll old new [] = ([], 0) := by
  rw [replaceAll]

theorem replaceAll_of_afterOpening? {old text rest : List Char} (hold : old ≠ []) (new : List Char)
    (h : afterOpening? old text = some rest) :
    replaceAll old new text =
      (new ++ (replaceAll old new rest).1, (replaceAll old new rest).2 + 1) := by
  have whole := congrArg List.length (afterOpening?_eq_some.1 h)
  rw [List.length_append] at whole
  have pos := List.length_pos_of_ne_nil hold
  cases text with
  | nil =>
    rw [List.length_nil] at whole
    omega
  | cons c cs =>
    rw [replaceAll, h]
    simp only
    rw [dif_pos (by omega)]

theorem replaceAll_of_not_afterOpening? {old : List Char} {c : Char} {cs : List Char}
    (new : List Char) (h : afterOpening? old (c :: cs) = none) :
    replaceAll old new (c :: cs) = (c :: (replaceAll old new cs).1, (replaceAll old new cs).2) := by
  rw [replaceAll, h]

/-- Where the old text does not start within the front of a text, the front stays. -/
theorem replaceAll_append {old : List Char} (new front rest : List Char)
    (h : ∀ i < front.length, afterOpening? old ((front ++ rest).drop i) = none) :
    replaceAll old new (front ++ rest) =
      (front ++ (replaceAll old new rest).1, (replaceAll old new rest).2) := by
  induction front with
  | nil => rfl
  | cons c front ih =>
    have none : afterOpening? old (c :: (front ++ rest)) = none := h 0 (Nat.zero_lt_succ _)
    rw [List.cons_append, replaceAll_of_not_afterOpening? new none,
      ih fun i hi => h (i + 1) (Nat.succ_lt_succ hi)]
    rfl

/-- Where nothing is replaced, the text stays. -/
theorem replaceAll_of_count_eq_zero {old new text : List Char} (hold : old ≠ [])
    (h : (replaceAll old new text).2 = 0) : (replaceAll old new text).1 = text := by
  induction text with
  | nil => rw [replaceAll_nil]
  | cons c cs ih =>
    cases found : afterOpening? old (c :: cs) with
    | some rest =>
      rw [replaceAll_of_afterOpening? hold new found] at h
      cases h
    | none =>
      rw [replaceAll_of_not_afterOpening? new found] at h ⊢
      rw [ih h]

namespace Markers

variable {m : Markers} {text old new : String}

/-- Replacing a marker that occurs as a reference only is renaming the references. -/
theorem replaceAll_mark {cs : List Char} (only : m.OnlyReferences old cs) :
    (replaceAll (m.mark old).toList (m.mark new).toList cs).1 =
      m.renamedChars (Function.update id old new) cs := by
  induction cs using split.induct m with
  | case1 => rw [renamedChars_nil, replaceAll_nil]
  | case2 c cs found rest hr ih =>
    have whole := mark_append_of_referenceAt? hr
    rw [renamedChars_of_referenceAt? hr, ← ih (only.of_referenceAt? hr)]
    by_cases same : found = old.toList
    · rw [whole, same, String.ofList_toList, Function.update_self,
        replaceAll_of_afterOpening? (m.toList_mark_ne old) _ (afterOpening?_append_self _ _)]
    · have other : String.ofList found ≠ old := fun h => same (h ▸ (String.toList_ofList).symm)
      rw [Function.update_of_ne other, id, whole, replaceAll_append]
      intro i hi
      rw [← whole]
      exact only.not_within hr same hi
  | case3 c cs missing ih =>
    obtain ⟨none, only⟩ := only.of_not_referenceAt? missing
    rw [renamedChars_of_not_referenceAt? missing, replaceAll_of_not_afterOpening? _ none, ih only]

/-- Turning the markers of a name into those of another is renaming the references to it. -/
theorem getD_renamed? (only : m.OnlyReferences old text.toList) :
    (m.renamed? text old new).getD text = m.renamedText (Function.update id old new) text := by
  rw [renamedText, ← replaceAll_mark only, renamed?]
  simp only
  split
  · rename_i none
    rw [Option.getD_none, replaceAll_of_count_eq_zero (m.toList_mark_ne old) none,
      String.ofList_toList]
  · rfl

end Markers

end LayeredConfig
