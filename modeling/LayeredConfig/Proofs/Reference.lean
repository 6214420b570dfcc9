import LayeredConfig.Proofs.Outcome
import LayeredConfig.Reference

/-!
# Texts with references filled in

`filled` is what `substitute` gives when no reference fails: the gaps of a text with a text for each
name between them.

* `filled_mark` : a text filled with its own markers is itself, so cutting loses nothing;
* `substitute_eq_filled`, `exists_of_substitute` : substitution succeeds iff it does for each name.
-/

namespace LayeredConfig.Markers

variable {m : Markers} {text : String}

/-- The text with each reference replaced by what `f` gives for its name. -/
def filled (m : Markers) (text : String) (f : String → String) : String :=
  String.ofList
    (((m.split text.toList).marked.map fun (gap, name) =>
      gap ++ (f (String.ofList name)).toList).flatten ++ (m.split text.toList).tail)

theorem filled_congr {f g : String → String} (h : ∀ name ∈ m.references text, f name = g name) :
    m.filled text f = m.filled text g := by
  have same : ∀ x ∈ (m.split text.toList).marked,
      x.1 ++ (f (String.ofList x.2)).toList = x.1 ++ (g (String.ofList x.2)).toList := fun x hx => by
    rw [h _ (List.mem_map_of_mem hx)]
  exact congrArg (fun parts => String.ofList (parts.flatten ++ _)) (List.map_congr_left same)

/-! ## Cutting loses nothing -/

theorem split_of_referenceAt? {c : Char} {cs name rest : List Char}
    (h : m.referenceAt? (c :: cs) = some (name, rest)) :
    m.split (c :: cs) =
      { m.split rest with marked := ([], name) :: (m.split rest).marked } := by
  rw [split]
  split
  · rename_i found
    cases h.symm.trans found
    rfl
  · rename_i missing
    rw [missing] at h
    cases h

theorem split_of_not_referenceAt? {c : Char} {cs : List Char}
    (h : m.referenceAt? (c :: cs) = none) : m.split (c :: cs) = (m.split cs).push c := by
  rw [split]
  split
  · rename_i found
    rw [h] at found
    cases found
  · rfl

theorem flatten_push (c : Char) (s : Split) (g : List Char × List Char → List Char)
    (hg : ∀ gap name, g (c :: gap, name) = c :: g (gap, name)) :
    ((s.push c).marked.map g).flatten ++ (s.push c).tail =
      c :: ((s.marked.map g).flatten ++ s.tail) := by
  unfold Split.push
  split
  · rename_i none
    simp [none]
  · rename_i gap name more some
    simp [some, hg]

theorem filled_mark (m : Markers) (text : String) : m.filled text m.mark = text := by
  have lossless : ∀ cs : List Char,
      ((m.split cs).marked.map fun (gap, name) =>
        gap ++ (m.mark (String.ofList name)).toList).flatten ++ (m.split cs).tail = cs := by
    intro cs
    induction cs using split.induct m with
    | case1 => rw [split]; rfl
    | case2 c cs name rest found ih =>
      rw [split_of_referenceAt? found, List.map_cons, List.flatten_cons, List.append_assoc, ih,
        referenceAt?_eq_append found]
      simp [mark]
    | case3 c cs missing ih =>
      rw [split_of_not_referenceAt? missing, flatten_push c _ _ fun _ _ => rfl, ih]
  rw [filled, lossless]
  exact String.ofList_toList

/-- A text without references stays as it is. -/
theorem filled_of_references_eq_nil (h : m.references text = []) (f : String → String) :
    m.filled text f = text := by
  rw [filled_congr fun name hname => absurd (h ▸ hname) List.not_mem_nil, filled_mark]

/-! ## Substitution -/

variable {ε : Type} {resolve : String → Except ε String}

theorem substitute_eq_filled {f : String → String}
    (h : ∀ name ∈ m.references text, resolve name = .ok (f name)) :
    m.substitute text resolve = .ok (m.filled text f) := by
  refine Outcome.bind_eq_ok.2 ⟨_, Outcome.mapM_eq_map fun x hx => ?_, rfl⟩
  have ok : resolve (String.ofList x.2) = .ok (f (String.ofList x.2)) :=
    h _ (List.mem_map_of_mem hx)
  exact Outcome.bind_eq_ok.2 ⟨_, ok, rfl⟩

/-- If substitution succeeds, it does for each name. -/
theorem exists_of_substitute {out : String} (h : m.substitute text resolve = .ok out)
    {name : String} (hname : name ∈ m.references text) : ∃ value, resolve name = .ok value := by
  obtain ⟨parts, hparts, -⟩ := Outcome.bind_eq_ok.1 h
  obtain ⟨⟨gap, cs⟩, hcs, rfl⟩ := List.mem_map.1 hname
  obtain ⟨part, hpart⟩ := Outcome.exists_of_mapM_eq_ok hparts hcs
  obtain ⟨value, hvalue, -⟩ := Outcome.bind_eq_ok.1 hpart
  exact ⟨value, hvalue⟩

end LayeredConfig.Markers
