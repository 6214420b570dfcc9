import LayeredConfig.Proofs.Compile.Layers
import LayeredConfig.Proofs.Outcome

/-!
# What a document is once its aliases stand for their contents

`Rose.unaliased expansion` says it with no order of work, no error and no place: `expansion` gives
for each name what an alias of that name stands for, and every node is built from the contents of
its aliases and its own children (`Layered.standIn`, `mergedEntries`).

One pass of expansion, `Rose.expanded`, goes through the nodes in document order and asks for the
content of each alias:

* it succeeds iff all these contents are found (`exists_expanded`, `exists_alias_of_expanded`), and
  its error is the error of one of them (`exists_alias_error`);
* its result is the unaliased document (`expanded_eq_unaliased`);
* its result has no marker, no repeated key and no empty scalar, if that is so of the contents
  (`settled_expanded`).
-/

namespace LayeredConfig

/-! ## Entries -/

/-- The entries of an object. Those that the objects among its aliases supply come first, under
each key the first of them; an own entry replaces the one of its key. The other own entries
follow. -/
def mergedEntries (expansions own : List (Rose Layered)) : List (Rose Layered) :=
  let objects := expansions.filter (·.label.shape = .object)
  let supplied := (objects.flatMap (·.children.roots)).eraseDupsBy (Forest.sameKey Layered.key)
  supplied.map (fun r => (own.find? (·.label.key == r.label.key)).getD r) ++
    own.filter fun r => r.label.key ∉ supplied.map (·.label.key)

theorem Forest.ofRoots_append {α : Type} (rs ss : List (Rose α)) :
    ofRoots (rs ++ ss) = ofRoots rs ++ ofRoots ss := by
  apply roots_injective
  rw [roots_append, roots_ofRoots, roots_ofRoots, roots_ofRoots]

/-- The entries supplied are those of the objects, one after the other, without later ones of a key
already there. -/
theorem suppliedEntries_eq (expansions : List (Rose Layered)) :
    suppliedEntries expansions =
      Forest.addMissing Layered.key .nil
        (.ofRoots ((expansions.filter (·.label.shape = .object)).flatMap (·.children.roots))) := by
  have step : ∀ (xs : List (Rose Layered)) (entries : Forest Layered),
      xs.foldl (fun entries r =>
          if r.label.shape = .object then entries.addMissing (·.key) r.children else entries)
        entries =
      entries.addMissing Layered.key
        (.ofRoots ((xs.filter (·.label.shape = .object)).flatMap (·.children.roots))) := by
    intro xs
    induction xs with
    | nil => exact fun _ => rfl
    | cons x xs ih =>
      intro entries
      rw [List.foldl_cons, ih]
      by_cases shape : x.label.shape = .object
      · rw [if_pos shape, List.filter_cons_of_pos (by simpa using shape), List.flatMap_cons,
          Forest.ofRoots_append, Forest.ofRoots_roots, Forest.addMissing_append]
      · rw [if_neg shape, List.filter_cons_of_neg (by simpa using shape)]
  exact step expansions .nil

theorem nodup_rootKeys_suppliedEntries (expansions : List (Rose Layered)) :
    ((suppliedEntries expansions).rootKeys Layered.key).Nodup := by
  rw [suppliedEntries_eq]
  exact Forest.nodup_rootKeys_addMissing (by simp) _

theorem mem_roots_suppliedEntries {expansions : List (Rose Layered)} {r : Rose Layered}
    (h : r ∈ (suppliedEntries expansions).roots) : ∃ x ∈ expansions, r ∈ x.children.roots := by
  rw [suppliedEntries_eq] at h
  rcases Forest.mem_roots_addMissing h with h | h
  · cases h
  · rw [Forest.roots_ofRoots] at h
    obtain ⟨x, hx, hr⟩ := List.mem_flatMap.1 h
    exact ⟨x, List.mem_of_mem_filter hx, hr⟩

/-- Under a key, objects supply what the first of them that has the key has there. -/
theorem findRoot?_suppliedEntries (k : String) (xs : List (Rose Layered)) :
    (suppliedEntries xs).findRoot? (Layered.key · == k) = xs.findSome? (·.child? (.key k)) := by
  rw [suppliedEntries_eq, Forest.findRoot?_addMissing, Forest.findRoot?_nil, Option.none_or,
    Forest.findRoot?_eq_find?, Forest.roots_ofRoots]
  induction xs with
  | nil => rfl
  | cons x xs ih =>
    rw [List.findSome?_cons]
    by_cases shape : x.label.shape = .object
    · rw [List.filter_cons_of_pos (by simpa using shape), List.flatMap_cons, List.find?_append, ih,
        Rose.child?_of_object shape, Forest.findRoot?_eq_find?]
      cases x.children.roots.find? fun r => r.label.key == k <;> rfl
    · have none : x.child? (.key k) = none :=
        Option.eq_none_iff_forall_ne_some.2 fun _ h => shape (Rose.shape_of_child?_key h)
      rw [List.filter_cons_of_neg (by simpa using shape), ih, none]

theorem roots_putAll_suppliedEntries (expansions : List (Rose Layered)) {own : Forest Layered}
    (ho : (own.rootKeys Layered.key).Nodup) :
    ((suppliedEntries expansions).putAll Layered.key own).roots =
      mergedEntries expansions own.roots := by
  have supplied : (suppliedEntries expansions).roots =
      ((expansions.filter (·.label.shape = .object)).flatMap (·.children.roots)).eraseDupsBy
        (Forest.sameKey Layered.key) := by
    rw [suppliedEntries_eq, Forest.roots_addMissing, Forest.roots_ofRoots]
    simp [Forest.roots]
  rw [Forest.roots_putAll (nodup_rootKeys_suppliedEntries expansions) ho, mergedEntries, ← supplied]
  simp only [Forest.findRoot?_eq_find?]
  rfl

/-! ## Nodes -/

/-- A node whose aliases stand for `expansions` and whose own children are `own`. A scalar or an
empty array is its first alias, and an object without entries its only one. -/
def Layered.standIn (l : Layered) (expansions own : List (Rose Layered)) : Rose Layered :=
  match l.shape, own, expansions with
  | .scalar _, _, x :: _ => x.withKey l.key
  | .array, [], x :: _ => x.withKey l.key
  | .object, [], [x] => x.withKey l.key
  | .object, own, xs => ⟨l.plain, .ofRoots (mergedEntries xs own)⟩
  | _, own, _ => ⟨l.plain, .ofRoots own⟩

theorem Layered.expanded_eq_standIn (l : Layered) (expansions : List (Rose Layered))
    {children : Forest Layered}
    (h : l.shape = .object → (children.rootKeys Layered.key).Nodup) :
    l.expanded expansions children = l.standIn expansions children.roots := by
  unfold expanded standIn
  cases shape : l.shape with
  | scalar history => cases expansions <;> simp
  | array => cases children <;> cases expansions <;> simp [Forest.roots, Forest.ofRoots]
  | object =>
    have entries : (suppliedEntries expansions).putAll Layered.key children =
        .ofRoots (mergedEntries expansions children.roots) := by
      rw [← roots_putAll_suppliedEntries expansions (h shape), Forest.ofRoots_roots]
    cases children with
    | nil =>
      rcases expansions with - | ⟨x, - | ⟨y, more⟩⟩
      · exact congrArg (Rose.mk _) entries
      · rfl
      · exact congrArg (Rose.mk _) entries
    | cons a cs ss => exact congrArg (Rose.mk _) entries

/-- The forest with aliases standing for what `expansion` gives for their names. -/
def Forest.unaliased (expansion : String → Rose Layered) : Forest Layered → Forest Layered
  | .nil => .nil
  | .cons l cs ss =>
    let r := l.standIn (l.aliases.map expansion) (cs.unaliased expansion).roots
    .cons r.label r.children (ss.unaliased expansion)

/-- The document with aliases standing for what `expansion` gives for their names. -/
def Rose.unaliased (expansion : String → Rose Layered) (r : Rose Layered) : Rose Layered :=
  r.label.standIn (r.label.aliases.map expansion) (r.children.unaliased expansion).roots

theorem Layered.key_standIn (l : Layered) (expansions own : List (Rose Layered)) :
    (l.standIn expansions own).label.key = l.key := by
  unfold standIn
  split <;> rfl

theorem Forest.rootKeys_unaliased (expansion : String → Rose Layered) (f : Forest Layered) :
    (f.unaliased expansion).rootKeys Layered.key = f.rootKeys Layered.key := by
  induction f with
  | nil => rfl
  | cons l cs ss _ ih => simp only [unaliased, rootKeys_cons, ih, Layered.key_standIn]

/-- The names of the aliases in a forest. -/
def Forest.aliasNames (f : Forest Layered) : List String := f.preorder.flatMap (·.aliases)

/-- The names of the aliases in a document. -/
def Rose.aliasNames (r : Rose Layered) : List String := r.preorder.flatMap (·.aliases)

theorem Rose.mem_aliasNames {r : Rose Layered} {name : String} :
    name ∈ r.aliasNames ↔ name ∈ r.label.aliases ∨ name ∈ r.children.aliasNames := by
  simp [aliasNames, Forest.aliasNames, preorder]

theorem Forest.mem_aliasNames_cons {l : Layered} {cs ss : Forest Layered} {name : String} :
    name ∈ (Forest.cons l cs ss).aliasNames ↔
      name ∈ (⟨l, cs⟩ : Rose Layered).aliasNames ∨ name ∈ ss.aliasNames := by
  simp [aliasNames, Rose.aliasNames, Forest.preorder, Rose.preorder, or_assoc]

/-! ## One pass of expansion -/

section Pass

variable {g : Place → String → Except CompileError (Rose Layered)}

theorem Forest.expanded_cons (parent : Shape) (place : Place) (position : Nat) (l : Layered)
    (cs ss : Forest Layered) :
    (Forest.cons l cs ss).expanded g parent place position =
      (do
        let r ← (⟨l, cs⟩ : Rose Layered).expanded g (place ++ [parent.step position l])
        let rest ← ss.expanded g parent place (position + 1)
        pure (.cons r.label r.children rest)) := by
  simp [Forest.expanded, Rose.expanded]

theorem Rose.expanded_eq_ok {place : Place} {r r' : Rose Layered} :
    r.expanded g place = .ok r' ↔
      ∃ xs children, r.label.aliases.mapM (g place) = .ok xs ∧
        r.children.expanded g r.label.shape place 0 = .ok children ∧
        r.label.expanded xs children = r' := by
  simp only [Rose.expanded, Outcome.bind_eq_ok, Outcome.pure_eq_ok]
  exact ⟨fun ⟨xs, hxs, cs, hcs, h⟩ => ⟨xs, cs, hxs, hcs, h⟩,
    fun ⟨xs, cs, hxs, hcs, h⟩ => ⟨xs, hxs, cs, hcs, h⟩⟩

theorem Forest.expanded_cons_eq_ok {parent : Shape} {place : Place} {position : Nat} {l : Layered}
    {cs ss f' : Forest Layered} :
    (Forest.cons l cs ss).expanded g parent place position = .ok f' ↔
      ∃ r rest, (⟨l, cs⟩ : Rose Layered).expanded g (place ++ [parent.step position l]) = .ok r ∧
        ss.expanded g parent place (position + 1) = .ok rest ∧
        .cons r.label r.children rest = f' := by
  rw [expanded_cons]
  simp only [Outcome.bind_eq_ok, Outcome.pure_eq_ok]
  exact ⟨fun ⟨r, hr, rest, hrest, h⟩ => ⟨r, rest, hr, hrest, h⟩,
    fun ⟨r, rest, hr, hrest, h⟩ => ⟨r, hr, rest, hrest, h⟩⟩

theorem Forest.expanded_congr {g' : Place → String → Except CompileError (Rose Layered)}
    {f : Forest Layered} (h : ∀ name ∈ f.aliasNames, ∀ place, g' place name = g place name)
    (parent : Shape) (place : Place) (position : Nat) :
    f.expanded g' parent place position = f.expanded g parent place position := by
  induction f generalizing parent place position with
  | nil => rfl
  | cons l cs ss ihc ihs =>
    have own := fun name hname => h name (mem_aliasNames_cons.2 (Or.inl hname))
    rw [expanded, expanded, Outcome.mapM_congr fun name hname =>
        own name (Rose.mem_aliasNames.2 (Or.inl hname)) (place ++ [parent.step position l]),
      ihc fun name hname => own name (Rose.mem_aliasNames.2 (Or.inr hname)),
      ihs fun name hname => h name (mem_aliasNames_cons.2 (Or.inr hname))]

/-- The pass depends on the contents of the aliases that it goes through. -/
theorem Rose.expanded_congr {g' : Place → String → Except CompileError (Rose Layered)}
    {r : Rose Layered} (h : ∀ name ∈ r.aliasNames, ∀ place, g' place name = g place name)
    (place : Place) : r.expanded g' place = r.expanded g place := by
  rw [expanded, expanded,
    Outcome.mapM_congr fun name hname => h name (mem_aliasNames.2 (Or.inl hname)) place,
    Forest.expanded_congr fun name hname => h name (mem_aliasNames.2 (Or.inr hname))]

/-- The pass succeeds if the content of every alias is found. -/
theorem Forest.exists_expanded {f : Forest Layered}
    (h : ∀ name ∈ f.aliasNames, ∀ place, ∃ x, g place name = .ok x) (parent : Shape)
    (place : Place) (position : Nat) : ∃ f', f.expanded g parent place position = .ok f' := by
  induction f generalizing parent place position with
  | nil => exact ⟨.nil, rfl⟩
  | cons l cs ss ihc ihs =>
    have own := fun name hname => h name (mem_aliasNames_cons.2 (Or.inl hname))
    obtain ⟨xs, hxs⟩ := Outcome.mapM_of_forall fun name hname =>
      own name (Rose.mem_aliasNames.2 (Or.inl hname)) (place ++ [parent.step position l])
    obtain ⟨children, hc⟩ := ihc (fun name hname => own name (Rose.mem_aliasNames.2 (Or.inr hname)))
      l.shape (place ++ [parent.step position l]) 0
    obtain ⟨rest, hs⟩ := ihs (fun name hname => h name (mem_aliasNames_cons.2 (Or.inr hname)))
      parent place (position + 1)
    exact ⟨_, expanded_cons_eq_ok.2
      ⟨_, rest, Rose.expanded_eq_ok.2 ⟨xs, children, hxs, hc, rfl⟩, hs, rfl⟩⟩

theorem Rose.exists_expanded {r : Rose Layered}
    (h : ∀ name ∈ r.aliasNames, ∀ place, ∃ x, g place name = .ok x) (place : Place) :
    ∃ r', r.expanded g place = .ok r' := by
  obtain ⟨xs, hxs⟩ := Outcome.mapM_of_forall fun name hname =>
    h name (mem_aliasNames.2 (Or.inl hname)) place
  obtain ⟨children, hc⟩ := Forest.exists_expanded
    (fun name hname => h name (mem_aliasNames.2 (Or.inr hname))) r.label.shape place 0
  exact ⟨_, expanded_eq_ok.2 ⟨xs, children, hxs, hc, rfl⟩⟩

/-- If the pass succeeds, it found the content of every alias. -/
theorem Forest.exists_alias_of_expanded {parent : Shape} {place : Place} {position : Nat}
    {f f' : Forest Layered} (h : f.expanded g parent place position = .ok f') {name : String}
    (hname : name ∈ f.aliasNames) : ∃ place x, g place name = .ok x := by
  induction f generalizing parent place position f' with
  | nil => cases hname
  | cons l cs ss ihc ihs =>
    obtain ⟨r, rest, hr, hs, -⟩ := expanded_cons_eq_ok.1 h
    obtain ⟨xs, children, hxs, hc, -⟩ := Rose.expanded_eq_ok.1 hr
    rcases mem_aliasNames_cons.1 hname with hname | hname
    · rcases Rose.mem_aliasNames.1 hname with hname | hname
      · exact ⟨_, Outcome.exists_of_mapM_eq_ok hxs hname⟩
      · exact ihc hc hname
    · exact ihs hs hname

theorem Rose.exists_alias_of_expanded {place : Place} {r r' : Rose Layered}
    (h : r.expanded g place = .ok r') {name : String} (hname : name ∈ r.aliasNames) :
    ∃ place x, g place name = .ok x := by
  obtain ⟨xs, children, hxs, hc, -⟩ := expanded_eq_ok.1 h
  rcases mem_aliasNames.1 hname with hname | hname
  · exact ⟨_, Outcome.exists_of_mapM_eq_ok hxs hname⟩
  · exact Forest.exists_alias_of_expanded hc hname

/-- The error of the pass is the error of an alias. -/
theorem Forest.exists_alias_error {parent : Shape} {place : Place} {position : Nat}
    {f : Forest Layered} {e : CompileError} (h : f.expanded g parent place position = .error e) :
    ∃ name ∈ f.aliasNames, ∃ place, g place name = .error e := by
  induction f generalizing parent place position with
  | nil => cases h
  | cons l cs ss ihc ihs =>
    rw [expanded] at h
    rcases Outcome.bind_eq_error.1 h with h | ⟨xs, -, h⟩
    · obtain ⟨name, hname, he⟩ := Outcome.exists_of_mapM_eq_error h
      exact ⟨name, mem_aliasNames_cons.2 (Or.inl (Rose.mem_aliasNames.2 (Or.inl hname))), _, he⟩
    · rcases Outcome.bind_eq_error.1 h with h | ⟨children, -, h⟩
      · obtain ⟨name, hname, he⟩ := ihc h
        exact ⟨name, mem_aliasNames_cons.2 (Or.inl (Rose.mem_aliasNames.2 (Or.inr hname))), he⟩
      · rcases Outcome.bind_eq_error.1 h with h | ⟨rest, -, h⟩
        · obtain ⟨name, hname, he⟩ := ihs h
          exact ⟨name, mem_aliasNames_cons.2 (Or.inr hname), he⟩
        · cases h

theorem Rose.exists_alias_error {place : Place} {r : Rose Layered} {e : CompileError}
    (h : r.expanded g place = .error e) :
    ∃ name ∈ r.aliasNames, ∃ place, g place name = .error e := by
  rcases Outcome.bind_eq_error.1 h with h | ⟨xs, -, h⟩
  · obtain ⟨name, hname, he⟩ := Outcome.exists_of_mapM_eq_error h
    exact ⟨name, mem_aliasNames.2 (Or.inl hname), _, he⟩
  · rcases Outcome.bind_eq_error.1 h with h | ⟨children, -, h⟩
    · obtain ⟨name, hname, he⟩ := Forest.exists_alias_error h
      exact ⟨name, mem_aliasNames.2 (Or.inr hname), he⟩
    · cases h

/-! ## The result of a pass -/

theorem Layered.key_expanded (l : Layered) (expansions : List (Rose Layered))
    (children : Forest Layered) : (l.expanded expansions children).label.key = l.key := by
  unfold expanded
  split <;> rfl

theorem Rose.key_expanded {place : Place} {r r' : Rose Layered}
    (h : r.expanded g place = .ok r') : r'.label.key = r.label.key := by
  obtain ⟨xs, children, -, -, rfl⟩ := expanded_eq_ok.1 h
  exact Layered.key_expanded _ _ _

theorem Forest.rootKeys_expanded {parent : Shape} {place : Place} {position : Nat}
    {f f' : Forest Layered} (h : f.expanded g parent place position = .ok f') :
    f'.rootKeys Layered.key = f.rootKeys Layered.key := by
  induction f generalizing position f' with
  | nil => rw [← Outcome.pure_eq_ok.1 h]
  | cons l cs ss _ ih =>
    obtain ⟨r, rest, hr, hs, rfl⟩ := expanded_cons_eq_ok.1 h
    rw [rootKeys_cons, rootKeys_cons, ih hs, Rose.key_expanded hr]

theorem Layered.expanded_eq_of_contents {expansion : String → Rose Layered} {place : Place}
    {l : Layered} {xs : List (Rose Layered)}
    (hg : ∀ name ∈ l.aliases, ∀ x, g place name = .ok x → x = expansion name)
    (h : l.aliases.mapM (g place) = .ok xs) : xs = l.aliases.map expansion := by
  have ok : ∀ name ∈ l.aliases, g place name = .ok (expansion name) := by
    intro name hname
    obtain ⟨x, hx⟩ := Outcome.exists_of_mapM_eq_ok h hname
    rw [hx, hg name hname x hx]
  rw [Outcome.mapM_eq_map ok] at h
  exact (Except.ok.inj h).symm

/-- If the contents of the aliases are those that `expansion` gives, the result is the unaliased
forest. -/
theorem Forest.expanded_eq_unaliased {expansion : String → Rose Layered} {parent : Shape}
    {place : Place} {position : Nat} {f f' : Forest Layered} (hk : f.Everywhere Rose.Keyed)
    (hg : ∀ name ∈ f.aliasNames, ∀ place x, g place name = .ok x → x = expansion name)
    (h : f.expanded g parent place position = .ok f') : f' = f.unaliased expansion := by
  induction f generalizing parent place position f' with
  | nil => exact (Outcome.pure_eq_ok.1 h).symm
  | cons l cs ss ihc ihs =>
    obtain ⟨hl, hcs, hss⟩ := everywhere_cons.1 hk
    obtain ⟨r, rest, hr, hs, rfl⟩ := expanded_cons_eq_ok.1 h
    obtain ⟨xs, children, hxs, hc, rfl⟩ := Rose.expanded_eq_ok.1 hr
    have own := fun name hname => hg name (mem_aliasNames_cons.2 (Or.inl hname))
    have children_eq : children = cs.unaliased expansion :=
      ihc hcs (fun name hname => own name (Rose.mem_aliasNames.2 (Or.inr hname))) hc
    have rest_eq : rest = ss.unaliased expansion :=
      ihs hss (fun name hname => hg name (mem_aliasNames_cons.2 (Or.inr hname))) hs
    have xs_eq : xs = l.aliases.map expansion := Layered.expanded_eq_of_contents
      (fun name hname => own name (Rose.mem_aliasNames.2 (Or.inl hname)) _) hxs
    rw [Layered.expanded_eq_standIn l xs fun shape => rootKeys_expanded hc ▸ hl shape, xs_eq,
      children_eq, rest_eq, unaliased]

theorem Rose.expanded_eq_unaliased {expansion : String → Rose Layered} {place : Place}
    {r r' : Rose Layered} (hk : r.Everywhere Keyed)
    (hg : ∀ name ∈ r.aliasNames, ∀ place x, g place name = .ok x → x = expansion name)
    (h : r.expanded g place = .ok r') : r' = r.unaliased expansion := by
  obtain ⟨xs, children, hxs, hc, rfl⟩ := expanded_eq_ok.1 h
  have children_eq : children = r.children.unaliased expansion := Forest.expanded_eq_unaliased hk.2
    (fun name hname => hg name (mem_aliasNames.2 (Or.inr hname))) hc
  have xs_eq : xs = r.label.aliases.map expansion := Layered.expanded_eq_of_contents
    (fun name hname => hg name (mem_aliasNames.2 (Or.inl hname)) _) hxs
  rw [Layered.expanded_eq_standIn _ xs fun shape => Forest.rootKeys_expanded hc ▸ hk.1 shape,
    xs_eq, children_eq, unaliased]

/-- A node without markers, in which no key repeats and a scalar has a value. -/
structure Rose.Settled (n : Rose Layered) : Prop where
  anchors : n.label.anchors = []
  aliases : n.label.aliases = []
  keyed : n.Keyed
  scalarLeaf : n.ScalarLeaf

theorem Rose.Settled.withKey {n : Rose Layered} (h : n.Settled) (key : String) :
    (n.withKey key).Settled := ⟨h.anchors, h.aliases, h.keyed, h.scalarLeaf⟩

theorem Layered.settled_plain {l : Layered} {children : Forest Layered}
    (hk : l.shape = .object → (children.rootKeys Layered.key).Nodup)
    (hl : ∀ history, l.shape = .scalar history → history ≠ [] ∧ children = .nil)
    (hc : children.Everywhere Rose.Settled) :
    (⟨l.plain, children⟩ : Rose Layered).Everywhere Rose.Settled := ⟨⟨rfl, rfl, hk, hl⟩, hc⟩

theorem Layered.settled_expanded {l : Layered} {xs : List (Rose Layered)}
    {children : Forest Layered} (hx : ∀ x ∈ xs, x.Everywhere Rose.Settled)
    (hl : ∀ history, l.shape = .scalar history → history ≠ [] ∧ children = .nil)
    (hc : children.Everywhere Rose.Settled) :
    (l.expanded xs children).Everywhere Rose.Settled := by
  have aliased : ∀ x ∈ xs, (x.withKey l.key).Everywhere Rose.Settled := fun x hx' =>
    ⟨(hx x hx').1.withKey _, (hx x hx').2⟩
  have merged : ((suppliedEntries xs).putAll (·.key) children).Everywhere Rose.Settled := by
    refine Forest.everywhere_iff_roots.2 fun r hr => ?_
    rcases Forest.mem_roots_putAll hr with hr | hr
    · obtain ⟨x, hx', hr⟩ := mem_roots_suppliedEntries hr
      exact (hx x hx').root hr
    · exact Forest.everywhere_iff_roots.1 hc r hr
  have object : l.shape = .object →
      (⟨l.plain, (suppliedEntries xs).putAll (·.key) children⟩ : Rose Layered).Everywhere
        Rose.Settled := fun shape =>
    settled_plain (fun _ => Forest.nodup_rootKeys_putAll (nodup_rootKeys_suppliedEntries xs) _)
      (fun history hs => by rw [shape] at hs; cases hs) merged
  unfold expanded
  cases shape : l.shape with
  | scalar history =>
    cases xs with
    | nil => exact settled_plain (fun hs => by rw [shape] at hs; cases hs) hl hc
    | cons x xs => exact aliased x List.mem_cons_self
  | array =>
    have plain : (⟨l.plain, children⟩ : Rose Layered).Everywhere Rose.Settled :=
      settled_plain (fun hs => by rw [shape] at hs; cases hs) hl hc
    cases children with
    | nil =>
      cases xs with
      | nil => exact plain
      | cons x xs => exact aliased x List.mem_cons_self
    | cons a cs ss => exact plain
  | object =>
    cases children with
    | nil =>
      rcases xs with - | ⟨x, - | ⟨y, more⟩⟩
      · exact object shape
      · exact aliased x List.mem_cons_self
      · exact object shape
    | cons a cs ss => exact object shape

/-- If the contents of the aliases are settled, so is the result. -/
theorem Forest.settled_expanded {parent : Shape} {place : Place} {position : Nat}
    {f f' : Forest Layered} (hf : f.Everywhere Rose.ScalarLeaf)
    (hg : ∀ name ∈ f.aliasNames, ∀ place x, g place name = .ok x → x.Everywhere Rose.Settled)
    (h : f.expanded g parent place position = .ok f') : f'.Everywhere Rose.Settled := by
  induction f generalizing parent place position f' with
  | nil =>
    rw [← Outcome.pure_eq_ok.1 h]
    exact everywhere_nil
  | cons l cs ss ihc ihs =>
    obtain ⟨hl, hcs, hss⟩ := everywhere_cons.1 hf
    obtain ⟨r, rest, hr, hs, rfl⟩ := expanded_cons_eq_ok.1 h
    obtain ⟨xs, children, hxs, hc, rfl⟩ := Rose.expanded_eq_ok.1 hr
    have own := fun name hname => hg name (mem_aliasNames_cons.2 (Or.inl hname))
    have settled : (l.expanded xs children).Everywhere Rose.Settled := by
      refine Layered.settled_expanded (fun x hx => ?_) (fun history shape => ?_)
        (ihc hcs (fun name hname => own name (Rose.mem_aliasNames.2 (Or.inr hname))) hc)
      · obtain ⟨name, hname, hx⟩ := Outcome.mem_of_mapM_eq_ok hxs hx
        exact own name (Rose.mem_aliasNames.2 (Or.inl hname)) _ x hx
      · obtain ⟨hne, hnil⟩ := hl history shape
        cases hnil
        exact ⟨hne, (Outcome.pure_eq_ok.1 hc).symm⟩
    exact everywhere_cons.2 ⟨settled.1, settled.2,
      ihs hss (fun name hname => hg name (mem_aliasNames_cons.2 (Or.inr hname))) hs⟩

theorem Rose.settled_expanded {place : Place} {r r' : Rose Layered}
    (hr : r.Everywhere ScalarLeaf)
    (hg : ∀ name ∈ r.aliasNames, ∀ place x, g place name = .ok x → x.Everywhere Settled)
    (h : r.expanded g place = .ok r') : r'.Everywhere Settled := by
  obtain ⟨xs, children, hxs, hc, rfl⟩ := expanded_eq_ok.1 h
  refine Layered.settled_expanded (fun x hx => ?_) (fun history shape => ?_)
    (Forest.settled_expanded hr.2 (fun name hname => hg name (mem_aliasNames.2 (Or.inr hname))) hc)
  · obtain ⟨name, hname, hx⟩ := Outcome.mem_of_mapM_eq_ok hxs hx
    exact hg name (mem_aliasNames.2 (Or.inl hname)) _ x hx
  · obtain ⟨hne, hnil⟩ := hr.1 history shape
    rw [hnil] at hc
    exact ⟨hne, (Outcome.pure_eq_ok.1 hc).symm⟩

end Pass

end LayeredConfig
