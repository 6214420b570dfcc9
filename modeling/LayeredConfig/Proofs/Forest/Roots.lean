import LayeredConfig.Forest
import Mathlib.Data.List.Nodup

/-!
# The trees of a forest by their keys

What a forest is as a list of trees, and what putting trees into it does to that list:

* `rootKeys` : the keys of the trees;
* `findRoot?_eq_find?`, `roots_filterRoots` : looking up and filtering are those of the list;
* `findRoot?_putRoot`, `findRoot?_putAll`, `findRoot?_addMissing` : which tree a key then names;
* `nodup_rootKeys_putAll`, `nodup_rootKeys_addMissing` : keys stay distinct;
* `roots_putAll`, `roots_addMissing` : the whole list, in order.
-/

namespace LayeredConfig.Forest

variable {α β : Type} {key : α → String}

/-- The keys of the trees, from left to right. -/
def rootKeys (key : α → String) (f : Forest α) : List String := f.roots.map fun r => key r.label

@[simp] theorem rootKeys_nil : (Forest.nil : Forest α).rootKeys key = [] := rfl

@[simp] theorem rootKeys_cons (a : α) (cs ss : Forest α) :
    (Forest.cons a cs ss).rootKeys key = key a :: ss.rootKeys key := rfl

@[simp] theorem rootKeys_append (f g : Forest α) :
    (f ++ g).rootKeys key = f.rootKeys key ++ g.rootKeys key := by
  simp [rootKeys]

theorem mem_rootKeys {f : Forest α} {k : String} :
    k ∈ f.rootKeys key ↔ ∃ r ∈ f.roots, key r.label = k := by
  simp [rootKeys]

theorem roots_injective {f g : Forest α} (h : f.roots = g.roots) : f = g := by
  rw [← ofRoots_roots f, h, ofRoots_roots]

theorem append_nil (f : Forest α) : f ++ .nil = f :=
  roots_injective (by rw [roots_append, roots, List.append_nil])

theorem append_assoc (f g h : Forest α) : f ++ g ++ h = f ++ (g ++ h) :=
  roots_injective (by simp only [roots_append, List.append_assoc])

/-! ## Looking up -/

theorem findRoot?_eq_find? (p : α → Bool) (f : Forest α) :
    f.findRoot? p = f.roots.find? fun r => p r.label := by
  induction f with
  | nil => rfl
  | cons a cs ss _ ih =>
    rw [findRoot?, roots, List.find?_cons, ih]
    cases p a <;> rfl

theorem roots_filterRoots (p : α → Bool) (f : Forest α) :
    (f.filterRoots p).roots = f.roots.filter fun r => p r.label := by
  induction f with
  | nil => rfl
  | cons a cs ss _ ih =>
    rw [filterRoots, roots, List.filter_cons]
    cases p a <;> simp [roots, ih]

theorem findRoot?_mem {p : α → Bool} {f : Forest α} {r : Rose α} (h : f.findRoot? p = some r) :
    r ∈ f.roots := by
  rw [findRoot?_eq_find?] at h
  exact List.mem_of_find?_eq_some h

theorem findRoot?_key {f : Forest α} {k : String} {r : Rose α}
    (h : f.findRoot? (key · == k) = some r) : key r.label = k := by
  rw [findRoot?_eq_find?] at h
  simpa using List.find?_some h

theorem findRoot?_eq_none_iff {f : Forest α} {k : String} :
    f.findRoot? (key · == k) = none ↔ k ∉ f.rootKeys key := by
  rw [findRoot?_eq_find?, mem_rootKeys]
  simp

theorem findRoot?_isSome_iff {f : Forest α} {k : String} :
    (f.findRoot? (key · == k)).isSome ↔ k ∈ f.rootKeys key := by
  rw [← not_iff_not, ← findRoot?_eq_none_iff]
  simp

@[simp] theorem findRoot?_nil (p : α → Bool) : (Forest.nil : Forest α).findRoot? p = none := rfl

theorem findRoot?_cons (a : α) (cs ss : Forest α) (k : String) :
    (Forest.cons a cs ss).findRoot? (key · == k) =
      if key a = k then some ⟨a, cs⟩ else ss.findRoot? (key · == k) := by
  simp [findRoot?]

theorem findRoot?_append (p : α → Bool) (f g : Forest α) :
    (f ++ g).findRoot? p = (f.findRoot? p).or (g.findRoot? p) := by
  rw [findRoot?_eq_find?, findRoot?_eq_find?, findRoot?_eq_find?, roots_append, List.find?_append]

/-- Where keys are distinct, every tree is the one that its key names. -/
theorem findRoot?_of_mem {f : Forest α} (hf : (f.rootKeys key).Nodup) {r : Rose α}
    (h : r ∈ f.roots) : f.findRoot? (key · == key r.label) = some r := by
  induction f with
  | nil => cases h
  | cons a cs ss _ ih =>
    rw [rootKeys_cons, List.nodup_cons] at hf
    rw [findRoot?_cons]
    rcases List.mem_cons.1 h with rfl | h
    · exact if_pos rfl
    · rw [if_neg fun same => hf.1 (mem_rootKeys.2 ⟨r, h, same.symm⟩)]
      exact ih hf.2 h

theorem findRoot?_filterRoots (f : Forest α) (j k : String) :
    (f.filterRoots (key · != j)).findRoot? (key · == k) =
      if k = j then none else f.findRoot? (key · == k) := by
  rw [findRoot?_eq_find?, roots_filterRoots, List.find?_filter, findRoot?_eq_find?]
  split
  · rename_i same
    subst same
    exact List.find?_eq_none.2 fun r _ => by simp
  · rename_i other
    congr 1
    funext r
    by_cases here : key r.label = k
    · simp [here, other]
    · simp [here]

theorem filterRoots_eq_self {q : α → Bool} {f : Forest α} (h : ∀ r ∈ f.roots, q r.label = true) :
    f.filterRoots q = f := by
  apply roots_injective
  rw [roots_filterRoots, List.filter_eq_self.2 h]

theorem filterRoots_eq_nil {k : String} {f : Forest α} (h : ∀ other ∈ f.rootKeys key, other = k) :
    f.filterRoots (key · != k) = .nil := by
  apply roots_injective
  rw [roots_filterRoots]
  refine List.filter_eq_nil_iff.2 fun r hr => ?_
  rw [h _ (mem_rootKeys.2 ⟨r, hr, rfl⟩), bne_self_eq_false]
  exact Bool.false_ne_true

theorem nodup_rootKeys_filterRoots {f : Forest α} (hf : (f.rootKeys key).Nodup) (q : α → Bool) :
    ((f.filterRoots q).rootKeys key).Nodup := by
  rw [rootKeys, roots_filterRoots]
  exact (List.filter_sublist.map _).nodup hf

theorem size_children_lt {f : Forest α} {r : Rose α} (h : r ∈ f.roots) :
    r.children.size < f.size := by
  induction f with
  | nil => cases h
  | cons a cs ss _ ih =>
    rw [size]
    rcases List.mem_cons.1 h with rfl | h
    · show cs.size < _
      omega
    · have := ih h
      omega

/-! ## Putting trees into a forest -/

theorem findRoot?_putRoot (f : Forest α) (r : Rose α) (k : String) :
    (f.putRoot key r).findRoot? (key · == k) =
      if key r.label = k then some r else f.findRoot? (key · == k) := by
  induction f with
  | nil => exact findRoot?_cons _ _ _ _
  | cons a cs ss _ ih =>
    rw [putRoot]
    by_cases same : key a = key r.label
    · rw [if_pos same, findRoot?_cons, findRoot?_cons, same]
      split <;> rfl
    · rw [if_neg same, findRoot?_cons, findRoot?_cons, ih]
      by_cases ha : key a = k
      · rw [if_pos ha, if_pos ha, if_neg fun hr => same (ha.trans hr.symm)]
      · rw [if_neg ha, if_neg ha]

theorem rootKeys_putRoot (f : Forest α) (r : Rose α) :
    (f.putRoot key r).rootKeys key =
      if key r.label ∈ f.rootKeys key then f.rootKeys key else f.rootKeys key ++ [key r.label] := by
  induction f with
  | nil => rfl
  | cons a cs ss _ ih =>
    rw [putRoot]
    by_cases same : key a = key r.label
    · simp [same]
    · rw [if_neg same, rootKeys_cons, ih, rootKeys_cons]
      simp only [List.mem_cons, Ne.symm same, false_or]
      split <;> rfl

theorem mem_rootKeys_putRoot {f : Forest α} {r : Rose α} {k : String} :
    k ∈ (f.putRoot key r).rootKeys key ↔ k ∈ f.rootKeys key ∨ k = key r.label := by
  rw [rootKeys_putRoot]
  split
  · rename_i there
    exact (or_iff_left_of_imp fun same => same ▸ there).symm
  · rw [List.mem_append, List.mem_singleton]

theorem nodup_rootKeys_putRoot {f : Forest α} (hf : (f.rootKeys key).Nodup) (r : Rose α) :
    ((f.putRoot key r).rootKeys key).Nodup := by
  rw [rootKeys_putRoot]
  split
  · exact hf
  · rename_i new
    rw [← List.concat_eq_append]
    exact hf.concat new

theorem nodup_rootKeys_putAll {base : Forest α} (hb : (base.rootKeys key).Nodup) (own : Forest α) :
    ((base.putAll key own).rootKeys key).Nodup := by
  induction own generalizing base with
  | nil => exact hb
  | cons a cs ss _ ih => exact ih (nodup_rootKeys_putRoot hb ⟨a, cs⟩)

theorem mem_roots_putRoot {f : Forest α} {r x : Rose α} (h : x ∈ (f.putRoot key r).roots) :
    x ∈ f.roots ∨ x = r := by
  induction f with
  | nil => exact Or.inr (List.mem_singleton.1 h)
  | cons a cs ss _ ih =>
    rw [putRoot] at h
    split at h
    · rcases List.mem_cons.1 h with rfl | h
      · exact Or.inr rfl
      · exact Or.inl (List.mem_cons_of_mem _ h)
    · rcases List.mem_cons.1 h with rfl | h
      · exact Or.inl List.mem_cons_self
      · exact (ih h).imp (List.mem_cons_of_mem _) id

theorem mem_roots_putAll {base own : Forest α} {x : Rose α}
    (h : x ∈ (base.putAll key own).roots) : x ∈ base.roots ∨ x ∈ own.roots := by
  induction own generalizing base with
  | nil => exact Or.inl h
  | cons a cs ss _ ih =>
    rcases ih h with h | h
    · rcases mem_roots_putRoot h with h | rfl
      · exact Or.inl h
      · exact Or.inr List.mem_cons_self
    · exact Or.inr (List.mem_cons_of_mem _ h)

theorem mem_rootKeys_putAll {base own : Forest α} {k : String} :
    k ∈ (base.putAll key own).rootKeys key ↔ k ∈ base.rootKeys key ∨ k ∈ own.rootKeys key := by
  induction own generalizing base with
  | nil => exact (or_iff_left List.not_mem_nil).symm
  | cons a cs ss _ ih => rw [putAll, ih, mem_rootKeys_putRoot, rootKeys_cons, List.mem_cons, or_assoc]

/-- A key names the last tree put under it. -/
theorem findRoot?_putAll (base own : Forest α) (k : String) :
    (base.putAll key own).findRoot? (key · == k) =
      (own.roots.reverse.find? fun r => key r.label == k).or (base.findRoot? (key · == k)) := by
  induction own generalizing base with
  | nil => rfl
  | cons a cs ss _ ih =>
    rw [putAll, ih, findRoot?_putRoot, roots, List.reverse_cons, List.find?_append]
    cases ss.roots.reverse.find? fun r => key r.label == k with
    | some r => rfl
    | none =>
      by_cases same : key a = k
      · simp [same]
      · simp [same]

/-- Where the keys put into a forest are distinct, a key names the tree put under it, or else the one
it named before. -/
theorem findRoot?_putAll_of_nodup {own : Forest α} (ho : (own.rootKeys key).Nodup)
    (base : Forest α) (k : String) :
    (base.putAll key own).findRoot? (key · == k) =
      (own.findRoot? (key · == k)).or (base.findRoot? (key · == k)) := by
  induction own generalizing base with
  | nil => rfl
  | cons a cs ss _ ih =>
    obtain ⟨new, hss⟩ := List.nodup_cons.1 ho
    rw [putAll, ih hss, findRoot?_putRoot, findRoot?_cons]
    by_cases same : key a = k
    · rw [if_pos same, if_pos same, ← same, findRoot?_eq_none_iff.2 new]
      rfl
    · rw [if_neg same, if_neg same]

theorem roots_putRoot {f : Forest α} (hf : (f.rootKeys key).Nodup) (r : Rose α) :
    (f.putRoot key r).roots =
      if key r.label ∈ f.rootKeys key then
        f.roots.map fun x => if key x.label = key r.label then r else x
      else f.roots ++ [r] := by
  induction f with
  | nil => rfl
  | cons a cs ss _ ih =>
    rw [rootKeys_cons, List.nodup_cons] at hf
    rw [putRoot, rootKeys_cons]
    by_cases same : key a = key r.label
    · have others : ∀ x ∈ ss.roots, key x.label ≠ key r.label := fun x hx h =>
        hf.1 (mem_rootKeys.2 ⟨x, hx, h.trans same.symm⟩)
      rw [if_pos same, if_pos (same ▸ List.mem_cons_self), roots, roots, List.map_cons,
        if_pos same, List.map_congr_left fun x hx => if_neg (others x hx), List.map_id']
    · rw [if_neg same, roots, ih hf.2, roots, List.map_cons, if_neg same]
      simp only [List.mem_cons, Ne.symm same, false_or]
      split <;> rfl

/-- Trees with distinct keys put into a forest: each replaces the one of its key, and those that
replace none go to the end. -/
theorem roots_putAll {base own : Forest α} (hb : (base.rootKeys key).Nodup)
    (ho : (own.rootKeys key).Nodup) :
    (base.putAll key own).roots =
      base.roots.map (fun r => (own.findRoot? (key · == key r.label)).getD r) ++
        own.roots.filter fun r => key r.label ∉ base.rootKeys key := by
  induction own generalizing base with
  | nil => simp [putAll, roots]
  | cons a cs ss _ ih =>
    rw [rootKeys_cons, List.nodup_cons] at ho
    have absent : ss.findRoot? (key · == key a) = none := findRoot?_eq_none_iff.2 ho.1
    rw [putAll, ih (nodup_rootKeys_putRoot hb _) ho.2, rootKeys_putRoot, roots_putRoot hb]
    by_cases ha : key a ∈ base.rootKeys key
    · rw [if_pos ha, if_pos ha, List.map_map, roots, List.filter_cons_of_neg (by simpa using ha)]
      congr 1
      refine List.map_congr_left fun x _ => ?_
      rw [Function.comp_apply, findRoot?_cons]
      by_cases same : key x.label = key a
      · rw [if_pos same, if_pos same.symm, absent]; rfl
      · rw [if_neg same, if_neg (Ne.symm same)]
    · have others : ∀ x ∈ base.roots, key a ≠ key x.label := fun x hx h =>
        ha (mem_rootKeys.2 ⟨x, hx, h.symm⟩)
      have kept : ss.roots.filter (fun r => key r.label ∉ base.rootKeys key ++ [key a]) =
          ss.roots.filter fun r => key r.label ∉ base.rootKeys key := by
        refine List.filter_congr fun x hx => ?_
        have hx : key x.label ≠ key a := fun h => ho.1 (mem_rootKeys.2 ⟨x, hx, h⟩)
        simp [hx]
      rw [if_neg ha, if_neg ha, kept, List.map_append, List.map_singleton, absent, roots,
        List.filter_cons_of_pos (by simpa using ha), List.append_assoc]
      congr 1
      refine List.map_congr_left fun x hx => ?_
      rw [findRoot?_cons, if_neg (others x hx)]

/-! ## Adding the trees whose keys are missing -/

theorem addMissing_append (own f g : Forest α) :
    addMissing key own (f ++ g) = addMissing key (addMissing key own f) g := by
  induction f generalizing own with
  | nil => rfl
  | cons a cs ss _ ih => exact ih _

/-- Whether two trees bear the same key. -/
def sameKey (key : α → String) (r s : Rose α) : Bool := key r.label == key s.label

/-- Of the trees under one key the first is added, unless the forest has one already. -/
theorem roots_addMissing (own f : Forest α) :
    (addMissing key own f).roots =
      own.roots ++
        (f.roots.filter fun r => key r.label ∉ own.rootKeys key).eraseDupsBy (sameKey key) := by
  induction f generalizing own with
  | nil => simp [addMissing, roots]
  | cons a cs ss _ ih =>
    rw [addMissing, ih]
    by_cases ha : key a ∈ own.rootKeys key
    · rw [if_pos (findRoot?_isSome_iff.2 ha), roots, List.filter_cons_of_neg (by simpa using ha)]
    · rw [if_neg fun h => ha (findRoot?_isSome_iff.1 h), roots,
        List.filter_cons_of_pos (by simpa using ha), List.eraseDupsBy_cons, List.filter_filter]
      simp [roots, sameKey, and_comm]

theorem nodup_rootKeys_addMissing {own : Forest α} (ho : (own.rootKeys key).Nodup)
    (f : Forest α) : ((addMissing key own f).rootKeys key).Nodup := by
  induction f generalizing own with
  | nil => exact ho
  | cons a cs ss _ ih =>
    refine ih ?_
    split
    · exact ho
    · rename_i new
      rw [findRoot?_isSome_iff] at new
      rw [rootKeys_append, rootKeys_cons, rootKeys_nil, ← List.concat_eq_append]
      exact ho.concat new

theorem mem_roots_addMissing {own f : Forest α} {x : Rose α}
    (h : x ∈ (addMissing key own f).roots) : x ∈ own.roots ∨ x ∈ f.roots := by
  induction f generalizing own with
  | nil => exact Or.inl h
  | cons a cs ss _ ih =>
    rcases ih h with h | h
    · split at h
      · exact Or.inl h
      · rw [roots_append] at h
        rcases List.mem_append.1 h with h | h
        · exact Or.inl h
        · exact Or.inr (List.mem_singleton.1 h ▸ List.mem_cons_self)
    · exact Or.inr (List.mem_cons_of_mem _ h)

/-- A key names the tree it named before, or else the first one added under it. -/
theorem findRoot?_addMissing (own f : Forest α) (k : String) :
    (addMissing key own f).findRoot? (key · == k) =
      (own.findRoot? (key · == k)).or (f.findRoot? (key · == k)) := by
  induction f generalizing own with
  | nil => simp [addMissing]
  | cons a cs ss _ ih =>
    rw [addMissing, ih, findRoot?_cons]
    split
    · rename_i found
      by_cases same : key a = k
      · obtain ⟨r, hr⟩ := Option.isSome_iff_exists.1 (same ▸ found)
        rw [hr]; rfl
      · rw [if_neg same]
    · rw [findRoot?_append, findRoot?_cons, Option.or_assoc]
      split <;> rfl

theorem mem_rootKeys_addMissing {own f : Forest α} {k : String} :
    k ∈ (addMissing key own f).rootKeys key ↔ k ∈ own.rootKeys key ∨ k ∈ f.rootKeys key := by
  rw [← findRoot?_isSome_iff, findRoot?_addMissing, Option.isSome_or, Bool.or_eq_true,
    findRoot?_isSome_iff, findRoot?_isSome_iff]

end LayeredConfig.Forest
