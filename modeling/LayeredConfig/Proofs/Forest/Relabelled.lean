import LayeredConfig.Proofs.Forest.Changes

/-!
# Forests under new labels

A change of all labels that tells keys apart just as the old labels do commutes with looking up a
key and with everything that is put together key by key.
-/

namespace LayeredConfig.Forest

variable {α β : Type} {g : α → β}

theorem map_append (g : α → β) (f f' : Forest α) : (f ++ f').map g = f.map g ++ f'.map g := by
  induction f with
  | nil => rfl
  | cons a cs ss _ ih => rw [cons_append, map, ih, map, cons_append]

/-- Two forests are the same if they are under two changes of labels that together tell all labels apart. -/
theorem eq_of_map_eq {γ : Type} {h : α → γ} (joint : ∀ a b, g a = g b → h a = h b → a = b) {f f' : Forest α}
    (same : f.map g = f'.map g) (same' : f.map h = f'.map h) : f = f' := by
  induction f generalizing f' with
  | nil =>
    cases f' with
    | nil => rfl
    | cons => cases same
  | cons a cs ss ihc ihs =>
    cases f' with
    | nil => cases same
    | cons a' cs' ss' =>
      rw [map, map, cons.injEq] at same same'
      rw [joint a a' same.1 same'.1, ihc same.2.1 same'.2.1, ihs same.2.2 same'.2.2]

theorem findRoot?_map {p : α → Bool} {q : β → Bool} (hq : ∀ a, q (g a) = p a) (f : Forest α) :
    (f.map g).findRoot? q = (f.findRoot? p).map (Rose.map g) := by
  induction f with
  | nil => rfl
  | cons a cs ss _ ih =>
    rw [map, findRoot?, hq, ih, findRoot?]
    split <;> rfl

theorem filterRoots_map {p : α → Bool} {q : β → Bool} (hq : ∀ a, q (g a) = p a) (f : Forest α) :
    (f.map g).filterRoots q = (f.filterRoots p).map g := by
  induction f with
  | nil => rfl
  | cons a cs ss _ ih =>
    rw [map, filterRoots, hq, ih, filterRoots]
    split <;> rfl

theorem isEmpty_map (g : α → β) (f : Forest α) : (f.map g).isEmpty = f.isEmpty := by
  cases f <;> rfl

theorem isEmpty_mapRoots (h : Nat → α → α) (f : Forest α) (first : Nat) :
    (f.mapRoots h first).isEmpty = f.isEmpty := by
  cases f <;> rfl

theorem mapRoots_map {h : Nat → α → α} {h' : Nat → β → β} (hg : ∀ i a, h' i (g a) = g (h i a))
    (f : Forest α) (first : Nat) : (f.map g).mapRoots h' first = (f.mapRoots h first).map g := by
  induction f generalizing first with
  | nil => rfl
  | cons a cs ss _ ih => rw [map, mapRoots, mapRoots, map, hg, ih]

section Keyed

variable {key : α → String} {key' : β → String}
  (hk : ∀ a b, key' (g a) = key' (g b) ↔ key a = key b)

include hk

theorem putRoot_map (r : Rose α) (f : Forest α) :
    (f.map g).putRoot key' (r.map g) = (f.putRoot key r).map g := by
  induction f with
  | nil => rfl
  | cons a cs ss _ ih =>
    have keys : key' (g a) = key' (r.map g).label ↔ key a = key r.label := hk a r.label
    rw [map, putRoot, putRoot, ih]
    by_cases same : key a = key r.label
    · rw [if_pos same, if_pos (keys.2 same)]
      rfl
    · rw [if_neg same, if_neg fun h => same (keys.1 h)]
      rfl

theorem putAll_map (base own : Forest α) :
    (base.map g).putAll key' (own.map g) = (base.putAll key own).map g := by
  induction own generalizing base with
  | nil => rfl
  | cons a cs ss _ ih => rw [map, putAll, putAll, ← ih, ← putRoot_map hk]; rfl

theorem addMissing_map (own f : Forest α) :
    (own.map g).addMissing key' (f.map g) = (own.addMissing key f).map g := by
  induction f generalizing own with
  | nil => rfl
  | cons a cs ss _ ih =>
    have found : (own.map g).findRoot? (key' · == key' (g a)) =
        (own.findRoot? (key · == key a)).map (Rose.map g) :=
      findRoot?_map (fun b => by simp [hk]) own
    rw [map, addMissing, addMissing, found, Option.isSome_map, ← ih]
    split
    · rfl
    · rw [map_append]; rfl

end Keyed

end LayeredConfig.Forest
