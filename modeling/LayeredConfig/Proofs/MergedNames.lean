import LayeredConfig.Settings
import Mathlib.Data.List.Nodup
import Mathlib.Data.List.Sort

/-!
# Lists of names merged

A list of names merged into another is their union without what it takes off, in the order in which
names occur first (`Merged`). There is one such list (`Merged.unique`). What has been merged already
satisfies the same for itself, so merging the same list once more changes nothing
(`mergeNames_mergeNames`), nor does the layer of a project that is laid over the settings twice
(`SettingsText.extended_extended`).

Main statement: `mergeNames_exact`.
-/

namespace LayeredConfig

/-! ## First occurrences -/

section FirstOccurrences

variable {l : List String} {x y : String}

/-- A filter keeps the order in which names that pass it occur first. -/
theorem idxOf_filter_lt_iff {p : String → Bool} (hx : p x) (hy : p y) (l : List String) :
    (l.filter p).idxOf x < (l.filter p).idxOf y ↔ l.idxOf x < l.idxOf y := by
  induction l with
  | nil => simp
  | cons z l ih =>
    by_cases zx : z = x
    · subst zx
      by_cases same : z = y
      · simp [same]
      · simp [hx, same]
    · by_cases zy : z = y
      · subst zy
        simp [hy, zx]
      · cases hz : p z <;> simp [hz, zx, zy, ih]

/-- Without repetitions names stand in the order in which they occur first. -/
theorem pairwise_idxOf_eraseDups (l : List String) :
    l.eraseDups.Pairwise fun x y => l.idxOf x < l.idxOf y := by
  match l with
  | [] => simp
  | z :: l =>
    rw [List.eraseDups_cons]
    have other : ∀ x ∈ (l.filter fun y => !y == z).eraseDups, z ≠ x := by
      intro x hx same
      simp [List.mem_eraseDups, same] at hx
    refine List.pairwise_cons.2 ⟨fun x hx => ?_, ?_⟩
    · simp [other x hx]
    · have rest := pairwise_idxOf_eraseDups (l.filter fun y => !y == z)
      refine rest.imp_of_mem fun {x y} hx hy earlier => ?_
      have passes : ∀ x ∈ (l.filter fun y => !y == z).eraseDups, (!x == z) = true := by
        intro x hx
        exact (List.mem_filter.1 (List.mem_eraseDups.1 hx)).2
      rw [idxOf_filter_lt_iff (passes x hx) (passes y hy)] at earlier
      simpa [List.idxOf_cons, other x hx, other y hy] using earlier
  termination_by l.length
  decreasing_by exact Nat.lt_succ_of_le (List.length_filter_le _ _)

/-- Names that differ stand in the order in which they occur first, also where more follow. -/
theorem pairwise_idxOf_of_nodup (distinct : l.Nodup) (more : List String) :
    l.Pairwise fun x y => (l ++ more).idxOf x < (l ++ more).idxOf y := by
  refine List.pairwise_iff_getElem.2 fun i j hi hj earlier => ?_
  rw [List.idxOf_append_of_mem (List.getElem_mem hi), List.idxOf_append_of_mem (List.getElem_mem hj),
    distinct.idxOf_getElem i hi, distinct.idxOf_getElem j hj]
  exact earlier

/-- Of names in the first list and names that pass a filter, first occurrences have the same order
whether the second list has been filtered or not. -/
theorem idxOf_append_filter_lt {p : String → Bool} {base more : List String} (hx : x ∈ base ∨ p x)
    (hy : y ∈ base ∨ p y) (earlier : (base ++ more.filter p).idxOf x < (base ++ more.filter p).idxOf y) :
    (base ++ more).idxOf x < (base ++ more).idxOf y := by
  by_cases xbase : x ∈ base <;> by_cases ybase : y ∈ base
  · simpa [List.idxOf_append, xbase, ybase] using earlier
  · have first := List.idxOf_lt_length_of_mem xbase
    simp only [List.idxOf_append, xbase, ybase, if_true, if_false]
    omega
  · have first := List.idxOf_lt_length_of_mem ybase
    simp only [List.idxOf_append, xbase, ybase, if_true, if_false] at earlier
    omega
  · have order := idxOf_filter_lt_iff (hx.resolve_left xbase) (hy.resolve_left ybase) more
    simp only [List.idxOf_append, xbase, ybase, if_false] at earlier ⊢
    omega

end FirstOccurrences

/-! ## Names taken off a list -/

/-- What takes a name off a list: the name behind an exclamation mark. -/
def negation (name : String) : String := "!" ++ name

/-- Whether a name starts with an exclamation mark. -/
def IsNegation (name : String) : Prop := ∃ other, name = negation other

theorem toList_negation (name : String) : (negation name).toList = '!' :: name.toList := by
  rw [negation, String.toList_append]
  rfl

theorem isNegation_iff {name : String} : IsNegation name ↔ name.toList.head? = some '!' := by
  constructor
  · rintro ⟨other, rfl⟩
    rw [toList_negation]
    rfl
  · intro first
    obtain ⟨rest, shape⟩ := List.head?_eq_some_iff.1 first
    refine ⟨String.ofList rest, String.toList_inj.1 ?_⟩
    rw [toList_negation, String.toList_ofList, shape]

/-- A list merged into another, entry by entry. -/
structure Merged (base overlay merged : List String) : Prop where
  once : merged.Nodup
  mem : ∀ name, name ∈ merged ↔
    (name ∈ base ∨ name ∈ overlay ∧ ¬IsNegation name) ∧ negation name ∉ overlay
  order : merged.Pairwise fun x y => (base ++ overlay).idxOf x < (base ++ overlay).idxOf y

/-- Only one list is the merged one. -/
theorem Merged.unique {base overlay merged merged' : List String} (h : Merged base overlay merged)
    (h' : Merged base overlay merged') : merged = merged' := by
  have same : merged.Perm merged' := by
    refine (List.perm_ext_iff_of_nodup h.once h'.once).2 fun name => ?_
    rw [h.mem, h'.mem]
  refine same.eq_of_pairwise (fun x y _ _ earlier later => ?_) h.order h'.order
  exact absurd later (Nat.lt_asymm earlier)

/-- The names that a list gives behind an exclamation mark are taken off. -/
theorem mem_mergeNames {base overlay : List String} {name : String} : name ∈ mergeNames base overlay ↔
    (name ∈ base ∨ name ∈ overlay ∧ ¬IsNegation name) ∧ negation name ∉ overlay := by
  unfold mergeNames
  dsimp only
  rw [List.mem_eraseDups, List.mem_filter, List.mem_append, List.mem_filter, isNegation_iff, bne_iff_ne,
    Bool.not_eq_true', List.contains_eq_mem, decide_eq_false_iff_not, List.mem_filterMap]
  refine and_congr_right fun _ => not_congr ⟨?_, fun inside => ⟨_, inside, ?_⟩⟩
  · rintro ⟨other, inside, taken⟩
    split at taken
    · rename_i rest shape
      have same : other = negation name := by
        rw [← Option.some.inj taken]
        exact String.toList_inj.1 (by rw [toList_negation, String.toList_ofList, shape])
      exact same ▸ inside
    · cases taken
  · rw [toList_negation]
    exact congrArg some String.ofList_toList

/-- Merged names stand in the order in which the two lists give them first. -/
theorem pairwise_mergeNames (base overlay : List String) : (mergeNames base overlay).Pairwise
    fun x y => (base ++ overlay).idxOf x < (base ++ overlay).idxOf y := by
  have given : ∀ name ∈ mergeNames base overlay,
      name ∈ base ∨ (name.toList.head? != some '!') = true := by
    intro name inside
    rcases (mem_mergeNames.1 inside).1 with here | ⟨-, plain⟩
    · exact Or.inl here
    · rw [isNegation_iff] at plain
      exact Or.inr (bne_iff_ne.2 plain)
  refine (pairwise_idxOf_eraseDups _).imp_of_mem fun {x y} hx hy earlier => ?_
  have kept := fun name (h : name ∈ mergeNames base overlay) =>
    (List.mem_filter.1 (List.mem_eraseDups.1 h)).2
  rw [idxOf_filter_lt_iff (kept x hx) (kept y hy)] at earlier
  exact idxOf_append_filter_lt (given x hx) (given y hy) earlier

theorem merged_mergeNames (base overlay : List String) :
    Merged base overlay (mergeNames base overlay) where
  once := (pairwise_mergeNames base overlay).imp fun {x y} earlier same => by
    subst same
    exact Nat.lt_irrefl _ earlier
  mem _ := mem_mergeNames
  order := pairwise_mergeNames base overlay

/-- What has been merged stays as it is when the same list is merged into it. -/
theorem Merged.again {base overlay merged : List String} (h : Merged base overlay merged) :
    Merged merged overlay merged where
  once := h.once
  mem name := by
    rw [h.mem]
    tauto
  order := pairwise_idxOf_of_nodup h.once overlay

theorem mergeNames_mergeNames (base overlay : List String) :
    mergeNames (mergeNames base overlay) overlay = mergeNames base overlay :=
  (merged_mergeNames _ overlay).unique (merged_mergeNames base overlay).again

/-- The layer of a project counts once, however often it is laid over the settings. -/
theorem SettingsText.extended_extended (s : SettingsText) (l : SettingsLayer) :
    (s.extended l).extended l = s.extended l := by
  obtain ⟨defaultFile, environments, opening, closing⟩ := l
  cases defaultFile <;> cases environments <;> cases opening <;> cases closing <;>
    simp [extended, replaced, mergeNames_mergeNames]

/-- **Lists merged.** The merged list is the one list without repetitions that has the names of both,
but none that starts with an exclamation mark from the second and none that the second gives behind
one, in the order in which the two lists give them first. Merging the second once more changes
nothing. -/
theorem mergeNames_exact (base overlay : List String) :
    (∀ merged, mergeNames base overlay = merged ↔ Merged base overlay merged) ∧
      mergeNames (mergeNames base overlay) overlay = mergeNames base overlay := by
  refine ⟨fun merged => ⟨?_, ?_⟩, mergeNames_mergeNames base overlay⟩
  · rintro rfl
    exact merged_mergeNames base overlay
  · exact (merged_mergeNames base overlay).unique

/-- A name twice, one added and taken off, one from the base behind an exclamation mark, and one that
is taken off with its mark. -/
example : mergeNames ["a", "!b", "!c", "a"] ["d", "e", "a", "!e", "!!c", "b", "d"] = ["a", "!b", "d", "b"] := by
  decide +kernel

end LayeredConfig
