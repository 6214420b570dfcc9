import LayeredConfig.Proofs.KeyOrder.Anchors

/-!
# The order of keys and aliases

Where anchors have contents that differ in the order of keys, so does what a node is once its aliases
stand for them (`Layered.expanded_reordered`, `Rose.Reordered.unaliased`). The order in which aliases
are expanded, and in which anchors become available, does not matter to success: an expansion that
succeeds in one order succeeds in the other (`Expanding.SameButOrder.expanded`).
-/

namespace LayeredConfig

/-! ## One node -/

theorem Rose.Reordered.withKey {r r' : Rose Layered} (h : r.Reordered Layered.isObject r')
    (key : String) : (r.withKey key).Reordered Layered.isObject (r'.withKey key) :=
  ⟨by rw [Rose.withKey, Rose.withKey, h.label], h.children⟩

/-- Of objects that differ in order, the first that has a key has entries of it that do. -/
theorem findSome?_child?_reordered {xs xs' : List (Rose Layered)}
    (hx : List.Forall₂ (Rose.Reordered Layered.isObject) xs xs') (kx : ∀ x ∈ xs, x.Keyed)
    (step : Step) :
    Option.Rel (Rose.Reordered Layered.isObject) (xs.findSome? (·.child? step))
      (xs'.findSome? (·.child? step)) := by
  induction hx with
  | nil => exact .none
  | cons same _ ih =>
    obtain ⟨keyed, kx⟩ := List.forall_mem_cons.1 kx
    have child := same.child? keyed step
    rw [List.findSome?_cons, List.findSome?_cons]
    revert child
    generalize Rose.child? _ step = y, Rose.child? _ step = y'
    rintro (same | -)
    · exact .some same
    · exact ih kx

/-- Objects whose own entries and whose aliases differ in order have entries that do. -/
theorem Layered.entries_reordered {l : Layered} (shape : l.shape = .object)
    {xs xs' : List (Rose Layered)} {children children' : Forest Layered}
    (hx : List.Forall₂ (Rose.Reordered Layered.isObject) xs xs') (kx : ∀ x ∈ xs, x.Keyed)
    (hc : children.Reordered Layered.isObject l.isObject children')
    (kc : (children.rootKeys Layered.key).Nodup) :
    (⟨l.plain, (suppliedEntries xs).putAll (·.key) children⟩ : Rose Layered).Reordered
      Layered.isObject ⟨l.plain, (suppliedEntries xs').putAll (·.key) children'⟩ := by
  have kc' := hc.nodup_rootKeys kc
  have object : l.plain.isObject = true := Layered.isObject_of_shape shape
  refine ⟨rfl, ?_⟩
  dsimp only
  rw [object]
  refine Forest.reordered_of_findRoot?
    (Forest.nodup_rootKeys_putAll (nodup_rootKeys_suppliedEntries xs) _)
    (Forest.nodup_rootKeys_putAll (nodup_rootKeys_suppliedEntries xs') _) fun k => ?_
  have named := hc.findRoot? kc k
  have supplied := findSome?_child?_reordered hx kx (.key k)
  rw [Forest.findRoot?_putAll_of_nodup kc, Forest.findRoot?_putAll_of_nodup kc',
    findRoot?_suppliedEntries, findRoot?_suppliedEntries]
  generalize children.findRoot? (Layered.key · == k) = y,
    children'.findRoot? (Layered.key · == k) = y' at named
  cases named with
  | none => exact supplied
  | some same => exact .some same

theorem Layered.expanded_reordered {l : Layered} {xs xs' : List (Rose Layered)}
    {children children' : Forest Layered}
    (hx : List.Forall₂ (Rose.Reordered Layered.isObject) xs xs') (kx : ∀ x ∈ xs, x.Keyed)
    (hc : children.Reordered Layered.isObject l.isObject children')
    (kc : l.shape = .object → (children.rootKeys Layered.key).Nodup) :
    (l.expanded xs children).Reordered Layered.isObject (l.expanded xs' children') := by
  have own : (⟨l.plain, children⟩ : Rose Layered).Reordered Layered.isObject ⟨l.plain, children'⟩ :=
    ⟨rfl, hc⟩
  have empty := hc.isEmpty_eq
  cases shape : l.shape with
  | scalar history =>
    cases hx with
    | nil => simpa only [expanded, shape] using own
    | cons first _ => simpa only [expanded, shape] using first.withKey l.key
  | array =>
    cases children <;> cases children' <;> cases empty
    · cases hx with
      | nil => simpa only [expanded, shape] using own
      | cons first _ => simpa only [expanded, shape] using first.withKey l.key
    · simpa only [expanded, shape] using own
  | object =>
    have merged := entries_reordered shape hx kx hc (kc shape)
    cases children <;> cases children' <;> cases empty
    · rcases hx with - | ⟨first, - | ⟨second, more⟩⟩
      · simpa only [expanded, shape] using merged
      · simpa only [expanded, shape] using first.withKey l.key
      · simpa only [expanded, shape] using merged
    · simpa only [expanded, shape] using merged

/-! ## Whole documents -/

theorem Layered.standIn_reordered {l : Layered} {xs xs' : List (Rose Layered)}
    {children children' : Forest Layered}
    (hx : List.Forall₂ (Rose.Reordered Layered.isObject) xs xs') (kx : ∀ x ∈ xs, x.Keyed)
    (hc : children.Reordered Layered.isObject l.isObject children')
    (kc : l.shape = .object → (children.rootKeys Layered.key).Nodup) :
    (l.standIn xs children.roots).Reordered Layered.isObject (l.standIn xs' children'.roots) := by
  rw [← Layered.expanded_eq_standIn l xs kc,
    ← Layered.expanded_eq_standIn l xs' fun shape => hc.nodup_rootKeys (kc shape)]
  exact expanded_reordered hx kx hc kc

/-- Contents of anchors for two documents that differ in order. -/
structure SameContents (names : List String) (expansion expansion' : String → Rose Layered) :
    Prop where
  keyed : ∀ name ∈ names, (expansion name).Keyed
  same : ∀ name ∈ names, (expansion name).Reordered Layered.isObject (expansion' name)

namespace SameContents

variable {names : List String} {expansion expansion' : String → Rose Layered}

theorem mono (h : SameContents names expansion expansion') {names' : List String}
    (fewer : ∀ name ∈ names', name ∈ names) : SameContents names' expansion expansion' :=
  ⟨fun name hn => h.keyed name (fewer name hn), fun name hn => h.same name (fewer name hn)⟩

theorem rose {r : Rose Layered} (h : SameContents r.aliasNames expansion expansion') :
    SameContents r.label.aliases expansion expansion' ∧
      SameContents r.children.aliasNames expansion expansion' :=
  ⟨h.mono fun _ hn => Rose.mem_aliasNames.2 (Or.inl hn),
    h.mono fun _ hn => Rose.mem_aliasNames.2 (Or.inr hn)⟩

theorem cons {l : Layered} {cs ss : Forest Layered}
    (h : SameContents (Forest.cons l cs ss).aliasNames expansion expansion') :
    SameContents (Rose.mk l cs).aliasNames expansion expansion' ∧
      SameContents ss.aliasNames expansion expansion' :=
  ⟨h.mono fun _ hn => Forest.mem_aliasNames_cons.2 (Or.inl hn),
    h.mono fun _ hn => Forest.mem_aliasNames_cons.2 (Or.inr hn)⟩

theorem forall₂ (h : SameContents names expansion expansion') :
    List.Forall₂ (Rose.Reordered Layered.isObject) (names.map expansion) (names.map expansion') := by
  rw [List.forall₂_map_left_iff, List.forall₂_map_right_iff, List.forall₂_same]
  exact h.same

theorem keyed_map (h : SameContents names expansion expansion') :
    ∀ x ∈ names.map expansion, x.Keyed := List.forall_mem_map.2 h.keyed

end SameContents

variable {expansion expansion' : String → Rose Layered}

theorem Layered.unaliased_reordered {l : Layered} {cs cs' : Forest Layered}
    (h : SameContents l.aliases expansion expansion')
    (keyed : l.shape = .object → (cs.rootKeys Layered.key).Nodup)
    (children : (cs.unaliased expansion).Reordered Layered.isObject l.isObject
      (cs'.unaliased expansion')) :
    (Rose.unaliased expansion ⟨l, cs⟩).Reordered Layered.isObject
      (Rose.unaliased expansion' ⟨l, cs'⟩) :=
  standIn_reordered h.forall₂ h.keyed_map children fun shape =>
    (Forest.rootKeys_unaliased expansion cs).symm ▸ keyed shape

/-- With contents that differ in order, a forest is the same but for the order. -/
theorem Forest.unaliased_reordered {f : Forest Layered} (hf : f.Everywhere Rose.Keyed)
    (h : SameContents f.aliasNames expansion expansion') (free : Bool) :
    (f.unaliased expansion).Reordered Layered.isObject free (f.unaliased expansion') := by
  induction f generalizing free with
  | nil => exact .nil
  | cons l cs ss ihc ihs =>
    obtain ⟨hl, hcs, hss⟩ := everywhere_cons.1 hf
    obtain ⟨own, rest⟩ := h.cons
    exact .cons_rose (Layered.unaliased_reordered own.rose.1 hl (ihc hcs own.rose.2 _))
      (ihs hss rest free)

theorem Forest.Reordered.mem_aliasNames {free : Bool} {f f' : Forest Layered}
    (h : f.Reordered Layered.isObject free f') {name : String} :
    name ∈ f'.aliasNames ↔ name ∈ f.aliasNames := (h.preorder_perm.flatMap_right _).mem_iff

/-- Forests that differ in order do so once unaliased. -/
theorem Forest.Reordered.unaliased {free : Bool} {f f' : Forest Layered}
    (h : f.Reordered Layered.isObject free f') (hf : f.Everywhere Rose.Keyed)
    (keyed : SameContents f.aliasNames expansion expansion) :
    (f.unaliased expansion).Reordered Layered.isObject free (f'.unaliased expansion) := by
  induction h with
  | nil => exact .nil
  | @cons free l cs cs' ss ss' _ _ ihc ihs =>
    obtain ⟨hl, hcs, hss⟩ := everywhere_cons.1 hf
    obtain ⟨own, rest⟩ := keyed.cons
    exact .cons_rose (Layered.unaliased_reordered own.rose.1 hl (ihc hcs own.rose.2))
      (ihs hss rest)
  | swap => exact .swap
  | trans hfg _ ih ih' =>
    exact (ih hf keyed).trans (ih' (hfg.everywhere (fun _ _ => Rose.Reordered.keyed) hf)
      (keyed.mono fun _ hn => hfg.mem_aliasNames.1 hn))

namespace Rose

variable {r r' : Rose Layered}

theorem Reordered.mem_aliasNames (h : r.Reordered Layered.isObject r') {name : String} :
    name ∈ r'.aliasNames ↔ name ∈ r.aliasNames := by
  rw [Rose.mem_aliasNames, Rose.mem_aliasNames, h.label, h.children.mem_aliasNames]

/-- Documents that differ in order, with contents that do, differ in order once unaliased. -/
theorem Reordered.unaliased (h : r.Reordered Layered.isObject r') (hr : r.Everywhere Keyed)
    (contents : SameContents r.aliasNames expansion expansion') :
    (r.unaliased expansion).Reordered Layered.isObject (r'.unaliased expansion') := by
  obtain ⟨label, children⟩ := h
  obtain ⟨l, cs⟩ := r
  obtain ⟨l', cs'⟩ := r'
  cases label
  obtain ⟨own, below⟩ := contents.rose
  have same : SameContents cs.aliasNames expansion expansion :=
    ⟨below.keyed, fun name _ => .refl _ _⟩
  refine Layered.unaliased_reordered own hr.1 ?_
  -- first the order changes, then the contents: an exchange of trees needs them unchanged
  exact (children.unaliased hr.2 same).trans (Forest.unaliased_reordered
    (children.everywhere (fun _ _ => Reordered.keyed) hr.2)
    (below.mono fun _ hn => children.mem_aliasNames.1 hn) _)

/-- If the pass over a document succeeds, so does one over a document that differs in order, provided
that every alias of the first is found in the second. -/
theorem Reordered.expanded (h : r.Reordered Layered.isObject r') (hr : r.Everywhere Keyed)
    {g g' : Place → String → Except CompileError (Rose Layered)}
    (hg : ∀ place name x, g place name = .ok x → x = expansion name)
    (hg' : ∀ place name x, g' place name = .ok x → x = expansion' name)
    (found : ∀ name place x, g place name = .ok x → x.Keyed ∧
      ∀ place', ∃ x', g' place' name = .ok x' ∧ x.Reordered Layered.isObject x')
    {place : Place} {y : Rose Layered} (hy : r.expanded g place = .ok y) (place' : Place) :
    ∃ y', r'.expanded g' place' = .ok y' ∧ y.Reordered Layered.isObject y' := by
  have each : ∀ name ∈ r.aliasNames, (expansion name).Keyed ∧ ∀ place',
      ∃ x', g' place' name = .ok x' ∧
        (expansion name).Reordered Layered.isObject x' := by
    intro name hn
    obtain ⟨place, x, hx⟩ := exists_alias_of_expanded hy hn
    exact hg place name x hx ▸ found name place x hx
  have contents : SameContents r.aliasNames expansion expansion' := by
    refine ⟨fun name hn => (each name hn).1, fun name hn => ?_⟩
    obtain ⟨x', hx', same⟩ := (each name hn).2 []
    exact hg' _ _ _ hx' ▸ same
  obtain ⟨y', hy'⟩ := exists_expanded (fun name hn place =>
    ((each name (h.mem_aliasNames.1 hn)).2 place).imp fun _ => And.left) place'
  refine ⟨y', hy', ?_⟩
  rw [expanded_eq_unaliased hr (fun name _ place x => hg place name x) hy,
    expanded_eq_unaliased (h.everywhere_keyed hr) (fun name _ place x => hg' place name x) hy']
  exact h.unaliased hr contents

end Rose

namespace Expanding.SameButOrder

variable {e e' : Expanding} (h : e.SameButOrder e')
  (keyed : ∀ name content, e.content? name = some content → content.Everywhere Rose.Keyed)
  (scalarLeaf : ∀ name content, e.content? name = some content →
    content.Everywhere Rose.ScalarLeaf)

include h

theorem exists_content {name : String} {content : Rose Layered}
    (hc : e.content? name = some content) :
    ∃ content', e'.content? name = some content' ∧
      content.Reordered Layered.isObject content' := by
  have contents := h.content? name
  rw [hc] at contents
  generalize e'.content? name = x at contents
  cases contents with
  | some same => exact ⟨_, rfl, same⟩

include keyed

theorem keyed' (name : String) (content' : Rose Layered) (hc : e'.content? name = some content') :
    content'.Everywhere Rose.Keyed := by
  have contents := h.content? name
  rw [hc] at contents
  generalize found : e.content? name = x at contents
  cases contents with
  | some same => exact same.everywhere_keyed (keyed _ _ found)

include scalarLeaf

/-- An alias that is expanded with some names available is expanded with the same names in another
order, to a content that differs in order. -/
theorem expandAlias {available available' : List String} (order : available.Perm available')
    {name : String} {place : Place} {x : Rose Layered}
    (hx : e.expandAlias available place name = .ok x) : x.Keyed ∧ ∀ place',
      ∃ x', e'.expandAlias available' place' name = .ok x' ∧
        x.Reordered Layered.isObject x' := by
  refine ⟨(settled_expandAlias scalarLeaf hx).1.keyed, fun place' => ?_⟩
  obtain ⟨content, hc, here, hx⟩ := expandAlias_eq_ok.1 hx
  obtain ⟨content', hc', contents⟩ := h.exists_content hc
  obtain ⟨expansion, hexp⟩ := exists_expansion keyed
  obtain ⟨expansion', hexp'⟩ := exists_expansion (h.keyed' keyed)
  have shorter := length_erase_lt here
  -- on both sides the content is expanded with this name no longer available
  obtain ⟨x', hx', same⟩ := contents.expanded (keyed _ _ hc) (fun place name x => hexp _ place name x)
    (fun place name x => hexp' _ place name x)
    (fun name place x hx => expandAlias (order.erase _) hx) hx place'
  exact ⟨x', expandAlias_eq_ok.2 ⟨content', hc', order.mem_iff.1 here, hx'⟩, same⟩
termination_by available.length
decreasing_by exact shorter

/-- If the expansion of a document succeeds, so does that of one that differs in order, and what they
give differs in order. -/
theorem expanded (document : e.document.Everywhere Rose.Keyed) {r : Rose Layered}
    (hr : e.expanded = .ok r) :
    ∃ r', e'.expanded = .ok r' ∧ r.Reordered Layered.isObject r' := by
  obtain ⟨expansion, hexp⟩ := exists_expansion keyed
  obtain ⟨expansion', hexp'⟩ := exists_expansion (h.keyed' keyed)
  exact h.document.expanded document (fun place name x => hexp _ place name x)
    (fun place name x => hexp' _ place name x)
    (fun name place x hx => h.expandAlias keyed scalarLeaf h.names.symm hx) hr []

end Expanding.SameButOrder

end LayeredConfig
