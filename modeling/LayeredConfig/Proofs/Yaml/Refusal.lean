import LayeredConfig.Proofs.Tree.Trails
import LayeredConfig.Proofs.Yaml.Layout

/-!
# Which trees are written

The nodes of a tree are written in pre-order, without those below a scalar (`Tree.visited`). A
document can hold a node when its aliases are anchors of this node or of one before it, and when its
anchor and its aliases can stand together (`Admissible`).

Writing is a check of the visited nodes one after the other (`announced_nodeLines`), and the lines do
not depend on it (`lines_eq`). So a tree is written iff all that is visited is admissible, the error
is that of the first node that is not, and without the checks the text is the same
(`emitTree_exact`).
-/

namespace LayeredConfig

theorem ValueType.isScalar_or (t : ValueType) : t.isScalar ∨ t = .object ∨ t = .array := by
  cases t <;> decide

/-! ## The nodes that are written -/

/-- The nodes of a forest that are written, in order. -/
def Forest.visited : Forest Entry → List (Rose Entry)
  | .nil => []
  | .cons e cs ss => ⟨e, cs⟩ :: ((if e.data.type.isContainer then cs.visited else []) ++ ss.visited)

/-- The nodes below the root of a tree that are written, in order. -/
def Tree.visited (t : Tree) : List (Rose Entry) := t.top.children.visited

namespace Yaml

/-- The anchors of some nodes. -/
def anchorsOf (rs : List (Rose Entry)) : List String := rs.filterMap (·.label.data.anchor)

/-- What a document can hold of a node, given the anchors up to it. -/
structure Admissible (anchors : List String) (r : Rose Entry) : Prop where
  resolved : ∀ a ∈ r.label.data.aliases, a ∈ anchors
  scalar : r.label.data.type.isScalar → r.label.data.aliases = [] ∨ r.label.data.anchor = none
  emptyArray : r.label.data.type = .array → r.children.isEmpty →
    r.label.data.aliases = [] ∨ r.label.data.anchor = none
  array : r.label.data.type = .array → r.children.isEmpty = false → r.label.data.aliases = []

/-- Each of these nodes is admissible after some anchors and those of the nodes before it. -/
def AllAdmissible (anchors : List String) (rs : List (Rose Entry)) : Prop :=
  ∀ before r after, rs = before ++ r :: after →
    Admissible (anchors ++ anchorsOf (before ++ [r])) r

/-- The errors for a node: its first alias that is no anchor so far, or else that its anchor and its
aliases cannot stand together. -/
inductive Refusal (anchors : List String) (r : Rose Entry) (path : String) : CompileError → Prop
  | unresolved {before after : List String} {a : String}
    (aliases : r.label.data.aliases = before ++ a :: after)
    (resolved : ∀ b ∈ before, b ∈ anchors) (unknown : a ∉ anchors) :
    Refusal anchors r path (.unresolvedAlias a path)
  | scalar (resolved : ∀ a ∈ r.label.data.aliases, a ∈ anchors) (type : r.label.data.type.isScalar)
    (both : r.label.data.aliases ≠ [] ∧ r.label.data.anchor ≠ none) :
    Refusal anchors r path (.unrepresentable path .anchoredScalarAlias)
  | emptyArray (resolved : ∀ a ∈ r.label.data.aliases, a ∈ anchors)
    (type : r.label.data.type = .array) (leaf : r.children.isEmpty)
    (both : r.label.data.aliases ≠ [] ∧ r.label.data.anchor ≠ none) :
    Refusal anchors r path (.unrepresentable path .anchoredArrayAlias)
  | array (resolved : ∀ a ∈ r.label.data.aliases, a ∈ anchors) (type : r.label.data.type = .array)
    (items : r.children.isEmpty = false) (merges : r.label.data.aliases ≠ []) :
    Refusal anchors r path (.unrepresentable path .arrayMerge)

/-! ## The check of a node -/

/-- The error for a node, if there is one. -/
def refusal? (anchors : List String) (r : Rose Entry) (path : String) : Option CompileError :=
  match r.label.data.aliases.find? (!anchors.contains ·) with
  | some a => some (.unresolvedAlias a path)
  | none => (unwritable? r.label.data r.children.isEmpty).map (.unrepresentable path ·)

variable {anchors anchors' : List String} {r : Rose Entry} {path : String} {e : CompileError}

theorem refusal?_congr (same : ∀ a, a ∈ anchors ↔ a ∈ anchors') :
    refusal? anchors r path = refusal? anchors' r path := by
  have unknown : (fun a => !anchors.contains a) = fun a => !anchors'.contains a := by
    funext a
    rw [Bool.eq_iff_iff]
    simp [same a]
  rw [refusal?, refusal?, unknown]

section Kinds

variable {d : NodeData} {leaf : Bool}

theorem unwritable?_of_scalar (scalar : d.type.isScalar) :
    unwritable? d leaf = if d.aliases = [] ∨ d.anchor = none then none else some .anchoredScalarAlias := by
  cases type : d.type with
  | object | array =>
    rw [type] at scalar
    cases scalar
  | string | boolean | number =>
    rw [unwritable?, type]
    cases d.aliases <;> cases d.anchor <;> rfl

theorem unwritable?_of_object (object : d.type = .object) : unwritable? d leaf = none := by
  rw [unwritable?, object, ite_self]

theorem unwritable?_of_emptyArray (array : d.type = .array) :
    unwritable? d true = if d.aliases = [] ∨ d.anchor = none then none else some .anchoredArrayAlias := by
  rw [unwritable?, array]
  cases d.aliases <;> cases d.anchor <;> rfl

theorem unwritable?_of_array (array : d.type = .array) :
    unwritable? d false = if d.aliases = [] then none else some .arrayMerge := by
  rw [unwritable?, array]
  cases d.aliases <;> rfl

theorem unwritable?_eq_none_iff :
    unwritable? d leaf = none ↔
      (d.type.isScalar → d.aliases = [] ∨ d.anchor = none) ∧
        (d.type = .array → leaf → d.aliases = [] ∨ d.anchor = none) ∧
          (d.type = .array → leaf = false → d.aliases = []) := by
  rcases d.type.isScalar_or with scalar | object | array
  · have other : d.type ≠ .array := by
      rintro array
      rw [array] at scalar
      cases scalar
    simp [unwritable?_of_scalar scalar, scalar, other, or_iff_not_imp_left]
  · simp [unwritable?_of_object object, object, ValueType.isScalar]
  · cases leaf with
    | true => simp [unwritable?_of_emptyArray array, array, ValueType.isScalar, or_iff_not_imp_left]
    | false => simp [unwritable?_of_array array, array, ValueType.isScalar]

end Kinds

theorem refusal?_eq_none_iff (path : String) : refusal? anchors r path = none ↔ Admissible anchors r := by
  unfold refusal?
  cases unknown : r.label.data.aliases.find? (!anchors.contains ·) with
  | some a =>
    have outside := List.find?_some unknown
    refine iff_of_false nofun fun fine => ?_
    simp [fine.resolved a (List.mem_of_find?_eq_some unknown)] at outside
  | none =>
    have resolved : ∀ a ∈ r.label.data.aliases, a ∈ anchors := fun a ha => by
      simpa using List.find?_eq_none.1 unknown a ha
    rw [Option.map_eq_none_iff, unwritable?_eq_none_iff]
    exact ⟨fun ⟨scalar, empty, array⟩ => ⟨resolved, scalar, empty, array⟩,
      fun fine => ⟨fine.scalar, fine.emptyArray, fine.array⟩⟩

theorem refusal_of_unwritable (resolved : ∀ a ∈ r.label.data.aliases, a ∈ anchors)
    {reason : Unwritable} (h : unwritable? r.label.data r.children.isEmpty = some reason) :
    Refusal anchors r path (.unrepresentable path reason) := by
  rcases r.label.data.type.isScalar_or with scalar | object | array
  · rw [unwritable?_of_scalar scalar] at h
    split at h
    · cases h
    · rename_i both
      cases h
      exact .scalar resolved scalar (not_or.1 both)
  · rw [unwritable?_of_object object] at h
    cases h
  · cases leaf : r.children.isEmpty with
    | true =>
      rw [leaf, unwritable?_of_emptyArray array] at h
      split at h
      · cases h
      · rename_i both
        cases h
        exact .emptyArray resolved array leaf (not_or.1 both)
    | false =>
      rw [leaf, unwritable?_of_array array] at h
      split at h
      · cases h
      · rename_i merges
        cases h
        exact .array resolved array leaf merges

theorem refusal?_eq_some_iff : refusal? anchors r path = some e ↔ Refusal anchors r path e := by
  constructor
  · intro h
    unfold refusal? at h
    cases unknown : r.label.data.aliases.find? (!anchors.contains ·) with
    | some a =>
      rw [unknown] at h
      cases h
      obtain ⟨outside, before, after, aliases, resolved⟩ := List.find?_eq_some_iff_append.1 unknown
      exact .unresolved aliases (by simpa using resolved) (by simpa using outside)
    | none =>
      rw [unknown] at h
      obtain ⟨reason, found, rfl⟩ := Option.map_eq_some_iff.1 h
      refine refusal_of_unwritable (fun a ha => ?_) found
      simpa using List.find?_eq_none.1 unknown a ha
  · have known (resolved : ∀ a ∈ r.label.data.aliases, a ∈ anchors) :
        refusal? anchors r path =
          (unwritable? r.label.data r.children.isEmpty).map (.unrepresentable path ·) := by
      unfold refusal?
      rw [List.find?_eq_none.2 fun a ha => by simpa using resolved a ha]
    intro h
    cases h with
    | @unresolved before after a aliases resolved unknown =>
      have first : r.label.data.aliases.find? (!anchors.contains ·) = some a :=
        List.find?_eq_some_iff_append.2 ⟨by simpa using unknown, before, after, aliases,
          by simpa using resolved⟩
      rw [refusal?, first]
    | scalar resolved type both =>
      rw [known resolved, unwritable?_of_scalar type, if_neg (not_or.2 both)]
      rfl
    | emptyArray resolved type leaf both =>
      rw [known resolved, leaf, unwritable?_of_emptyArray type, if_neg (not_or.2 both)]
      rfl
    | array resolved type items merges =>
      rw [known resolved, items, unwritable?_of_array type, if_neg merges]
      rfl

/-- A node is refused, or its anchor is announced. -/
theorem announce_eq (validate : Bool) (r : Rose Entry) (path : String) (declared : List String) :
    announce validate r.label.data r.children.isEmpty path declared =
      (if validate then refusal? (r.label.data.anchor.toList ++ declared) r path else none).elim
        (.ok ((), r.label.data.anchor.toList ++ declared)) .error := by
  cases validate with
  | false => exact announce_false _ _ _ _
  | true =>
    rw [announce_true, if_pos rfl, refusal?]
    cases r.label.data.aliases.find? (!(r.label.data.anchor.toList ++ declared).contains ·) <;> rfl

/-! ## The check of a tree -/

/-- The anchors after some nodes, announced one after the other, or the error of the first that is
refused. -/
def announceAll (validate : Bool) (pathOf : Handle → String) (declared : List String) :
    List (Rose Entry) → Except CompileError (List String)
  | [] => .ok declared
  | r :: rs =>
    let known := r.label.data.anchor.toList ++ declared
    match if validate then refusal? known r (pathOf r.label.handle) else none with
    | some e => .error e
    | none => announceAll validate pathOf known rs

variable {validate : Bool} {pathOf : Handle → String} {declared : List String}
  {rs ss : List (Rose Entry)}

theorem announceAll_append :
    announceAll validate pathOf declared (rs ++ ss) =
      (announceAll validate pathOf declared rs >>= (announceAll validate pathOf · ss)) := by
  induction rs generalizing declared with
  | nil => rfl
  | cons r rs ih =>
    rw [List.cons_append, announceAll, announceAll]
    split
    · rfl
    · exact ih

theorem announceAll_false (pathOf : Handle → String) (declared : List String)
    (rs : List (Rose Entry)) : ∃ declared', announceAll false pathOf declared rs = .ok declared' := by
  induction rs generalizing declared with
  | nil => exact ⟨declared, rfl⟩
  | cons r rs ih => exact ih _

/-- **Nodes are announced in the order in which they are visited.** -/
theorem announced_nodeLines {f : Forest Entry} {path : String} (validate dashes : Bool)
    (declared : List String)
    (ways : ∀ way ∈ f.trails, ∀ e, way.getLast? = some e →
      pathOf e.handle = joinKeys path (way.map (·.data.key))) :
    (nodeLines validate path dashes (f.map (·.data)) declared).map Prod.snd =
      announceAll validate pathOf declared f.visited := by
  induction f generalizing path dashes declared with
  | nil => rfl
  | cons e cs ss ihc ihs =>
    have here : joinKeys path [e.data.key] = pathOf e.handle :=
      (ways [e] List.mem_cons_self e rfl).symm
    have inside : ∀ way ∈ cs.trails, ∀ x, way.getLast? = some x →
        pathOf x.handle = joinKeys (joinKeys path [e.data.key]) (way.map (·.data.key)) := by
      intro way hw x last
      have below : e :: way ∈ (Forest.cons e cs ss).trails :=
        List.mem_cons_of_mem _ (List.mem_append_left _ (List.mem_map_of_mem hw))
      obtain ⟨y, rest, rfl⟩ := List.exists_cons_of_ne_nil (Forest.ne_nil_of_mem_trails hw)
      rw [ways _ below x (by rw [List.getLast?_cons_cons, last])]
      rfl
    have beside : ∀ way ∈ ss.trails, ∀ x, way.getLast? = some x →
        pathOf x.handle = joinKeys path (way.map (·.data.key)) := fun way hw =>
      ways way (List.mem_cons_of_mem _ (List.mem_append_right _ hw))
    have leaf : (cs.map (·.data)).isEmpty = cs.isEmpty := Forest.isEmpty_map _ _
    -- What comes behind the block of the node does not depend on its lines.
    have later (lines : List String → List String) (known : List String) :
        Except.map Prod.snd ((do
          let rest ← nodeLines validate path dashes (ss.map (·.data))
          pure (lines rest) : Emission (List String)) known) =
          announceAll validate pathOf known ss.visited := by
      rw [← ihs dashes known beside]
      show Except.map Prod.snd (nodeLines validate path dashes (ss.map (·.data)) known >>= fun p => _) = _
      cases nodeLines validate path dashes (ss.map (·.data)) known <;> rfl
    rw [Forest.map, nodeLines, Forest.visited, announceAll, leaf]
    show Except.map Prod.snd
      (announce validate e.data cs.isEmpty (joinKeys path [e.data.key]) declared >>= fun p => _) = _
    rw [announce_eq validate ⟨e, cs⟩]
    rw [here] at inside ⊢
    dsimp only
    generalize (if validate then refusal? (e.data.anchor.toList ++ declared) ⟨e, cs⟩ (pathOf e.handle)
      else none) = fault
    cases fault with
    | some fault => rfl
    | none =>
      dsimp only
      generalize e.data.anchor.toList ++ declared = known
      split
      · rw [announceAll_append, ← ihc (e.data.type = .array) known inside]
        show Except.map Prod.snd (nodeLines validate (pathOf e.handle) (e.data.type = .array)
          (cs.map (·.data)) known >>= fun p => _) = _
        cases nodeLines validate (pathOf e.handle) (e.data.type = .array) (cs.map (·.data)) known with
        | error e => rfl
        | ok p => exact later _ p.2
      · exact later _ known

/-! ## The first node that is refused -/

theorem anchorsOf_cons (r : Rose Entry) (rs : List (Rose Entry)) :
    anchorsOf (r :: rs) = r.label.data.anchor.toList ++ anchorsOf rs := by
  rw [anchorsOf, List.filterMap_cons]
  cases r.label.data.anchor <;> rfl

/-- The anchors up to a node are those of the first node and those from there on. -/
theorem mem_anchorsOf_cons (a : String) (first r : Rose Entry) (before : List (Rose Entry)) :
    a ∈ declared ++ anchorsOf (first :: before ++ [r]) ↔
      a ∈ first.label.data.anchor.toList ++ declared ++ anchorsOf (before ++ [r]) := by
  rw [List.cons_append, anchorsOf_cons]
  simp only [List.mem_append]
  tauto

theorem mem_anchorsOf_singleton (a : String) (r : Rose Entry) :
    a ∈ declared ++ anchorsOf ([] ++ [r]) ↔ a ∈ r.label.data.anchor.toList ++ declared := by
  rw [List.nil_append, anchorsOf_cons]
  simp only [List.mem_append]
  exact ⟨fun h => h.elim Or.inr fun h => h.elim Or.inl nofun, fun h => h.elim (Or.inr ∘ Or.inl) Or.inl⟩

theorem Admissible.congr (h : Admissible anchors r) (same : ∀ a, a ∈ anchors ↔ a ∈ anchors') :
    Admissible anchors' r := { h with resolved := fun a ha => (same a).1 (h.resolved a ha) }

theorem allAdmissible_cons :
    AllAdmissible declared (r :: rs) ↔
      Admissible (r.label.data.anchor.toList ++ declared) r ∧
        AllAdmissible (r.label.data.anchor.toList ++ declared) rs := by
  constructor
  · intro all
    refine ⟨(all [] r rs rfl).congr fun a => mem_anchorsOf_singleton a r, ?_⟩
    rintro before x after rfl
    exact (all (r :: before) x after rfl).congr fun a => mem_anchorsOf_cons a r x before
  · rintro ⟨first, all⟩ before x after same
    cases before with
    | nil =>
      cases same
      exact first.congr fun a => (mem_anchorsOf_singleton a r).symm
    | cons y before =>
      cases same
      exact (all before x after rfl).congr fun a => (mem_anchorsOf_cons a r x before).symm

theorem announceAll_eq_ok_iff (pathOf : Handle → String) :
    (∃ known, announceAll true pathOf declared rs = .ok known) ↔ AllAdmissible declared rs := by
  induction rs generalizing declared with
  | nil => exact iff_of_true ⟨_, rfl⟩ fun before r after same => by cases before <;> cases same
  | cons r rs ih =>
    rw [announceAll, allAdmissible_cons, ← ih, ← refusal?_eq_none_iff (pathOf r.label.handle)]
    rw [if_pos rfl]
    cases refusal? (r.label.data.anchor.toList ++ declared) r (pathOf r.label.handle) with
    | some e => exact iff_of_false nofun nofun
    | none => exact (and_iff_right rfl).symm

/-- The error is that of the first node that is refused. -/
theorem announceAll_eq_error_iff :
    announceAll true pathOf declared rs = .error e ↔
      ∃ before r after, rs = before ++ r :: after ∧ AllAdmissible declared before ∧
        Refusal (declared ++ anchorsOf (before ++ [r])) r (pathOf r.label.handle) e := by
  induction rs generalizing declared with
  | nil => exact iff_of_false nofun fun ⟨before, r, after, same, _⟩ => by cases before <;> cases same
  | cons r rs ih =>
    have here : Refusal (declared ++ anchorsOf ([] ++ [r])) r (pathOf r.label.handle) e ↔
        refusal? (r.label.data.anchor.toList ++ declared) r (pathOf r.label.handle) = some e := by
      rw [← refusal?_eq_some_iff, refusal?_congr fun a => mem_anchorsOf_singleton a r]
    have step : announceAll true pathOf declared (r :: rs) = .error e ↔
        refusal? (r.label.data.anchor.toList ++ declared) r (pathOf r.label.handle) = some e ∨
          (Admissible (r.label.data.anchor.toList ++ declared) r ∧
            announceAll true pathOf (r.label.data.anchor.toList ++ declared) rs = .error e) := by
      rw [announceAll, ← refusal?_eq_none_iff (pathOf r.label.handle)]
      rw [if_pos rfl]
      cases refusal? (r.label.data.anchor.toList ++ declared) r (pathOf r.label.handle) with
      | some e' => simp
      | none => simp
    rw [step, ih]
    constructor
    · rintro (refused | ⟨fine, before, x, after, rfl, all, refused⟩)
      · exact ⟨[], r, rs, rfl, fun before x after same => (by cases before <;> cases same), here.2 refused⟩
      · refine ⟨r :: before, x, after, rfl, allAdmissible_cons.2 ⟨fine, all⟩, ?_⟩
        rwa [← refusal?_eq_some_iff, refusal?_congr fun a => mem_anchorsOf_cons a r x before,
          refusal?_eq_some_iff]
    · rintro ⟨before, x, after, same, all, refused⟩
      cases before with
      | nil =>
        cases same
        exact Or.inl (here.1 refused)
      | cons y before =>
        cases same
        obtain ⟨fine, all⟩ := allAdmissible_cons.1 all
        refine Or.inr ⟨fine, before, x, after, rfl, all, ?_⟩
        rwa [← refusal?_eq_some_iff, refusal?_congr fun a => mem_anchorsOf_cons a r x before,
          refusal?_eq_some_iff] at refused

/-! ## Trees -/

/-- The text of a tree. -/
def treeText (t : Tree) : String :=
  if t.top.children.isEmpty then "\x7b\x7d\n" else joinLines (linesOf false (t.top.children.map (·.data)))

/-- A tree is written as its text, unless a node is refused. -/
theorem emitTree_eq {t : Tree} (sound : t.Sound) (validate : Bool) :
    emitTree validate t =
      (announceAll validate t.pathText [] t.visited).map fun _ => treeText t := by
  have ways : ∀ way ∈ t.top.children.trails, ∀ e, way.getLast? = some e →
      t.pathText e.handle = joinKeys t.top.label.data.key (way.map (·.data.key)) := by
    intro way inside e last
    have below : t.top.label :: way ∈ t.forest.trails :=
      List.mem_cons_of_mem _ (List.mem_append_left _ (List.mem_map_of_mem inside))
    obtain ⟨x, rest, rfl⟩ := List.exists_cons_of_ne_nil (Forest.ne_nil_of_mem_trails inside)
    have trail := (sound.mem_trails_iff.1 ⟨below, by rw [List.getLast?_cons_cons, last]⟩).2
    rw [Tree.pathText, Tree.keyPath, trail]
    rfl
  have announced := announced_nodeLines validate false [] ways
  rw [Tree.visited, ← announced, emitTree, emitDraft, Draft.isLeaf, treeText]
  show (if (t.top.children.map (·.data)).isEmpty then _ else _) = _
  rw [Forest.isEmpty_map]
  cases children : t.top.children with
  | nil => rfl
  | cons e cs ss =>
    rw [← children, if_neg (by rw [children]; nofun), if_neg (by rw [children]; nofun)]
    show (StateT.run' (nodeLines validate t.top.label.data.key false (t.top.children.map (·.data))) [] >>=
      fun lines => pure (joinLines lines)) = _
    rw [StateT.run']
    cases written : nodeLines validate t.top.label.data.key false (t.top.children.map (·.data)) [] with
    | error e => rfl
    | ok p =>
      rw [← lines_eq written]
      rfl

/-- **Exactly the trees that a document can hold are written.** With the checks a tree is written iff
every node that is visited is admissible; else the error is that of the first node that is not, at its
path. Without the checks every tree is written, and what is written with them is written as the same
text. -/
theorem emitTree_exact {t : Tree} (sound : t.Sound) :
    ((∃ text, emitTree true t = .ok text) ↔ AllAdmissible [] t.visited) ∧
      (∀ e, emitTree true t = .error e ↔
        ∃ before r after, t.visited = before ++ r :: after ∧ AllAdmissible [] before ∧
          Refusal (anchorsOf (before ++ [r])) r (t.pathText r.label.handle) e) ∧
      (∃ text, emitTree false t = .ok text) ∧
      ∀ text, emitTree true t = .ok text → emitTree false t = .ok text := by
  obtain ⟨known, unchecked⟩ := announceAll_false t.pathText [] t.visited
  have written : emitTree false t = .ok (treeText t) := by
    rw [emitTree_eq sound, unchecked]
    rfl
  refine ⟨?_, fun e => ?_, ⟨_, written⟩, fun text checked => ?_⟩
  · rw [← announceAll_eq_ok_iff t.pathText, emitTree_eq sound]
    simp only [Outcome.map_eq_ok]
    exact ⟨fun ⟨_, known, h, _⟩ => ⟨known, h⟩, fun ⟨known, h⟩ => ⟨_, known, h, rfl⟩⟩
  · have error : emitTree true t = .error e ↔
        announceAll true t.pathText [] t.visited = .error e := by
      rw [emitTree_eq sound]
      cases announceAll true t.pathText [] t.visited <;> simp [Except.map]
    rw [error]
    exact announceAll_eq_error_iff
  · rw [emitTree_eq sound, Outcome.map_eq_ok] at checked
    obtain ⟨-, -, rfl⟩ := checked
    exact written

/-- An object with an anchor, a node that repeats it, and a list of one item that does so too. -/
def mergedList : Tree := .ofDrafts .default <| .ofRoots
  [⟨{ key := "shared", anchor := some "s" }, .nil⟩, ⟨{ key := "copy", aliases := ["s"] }, .nil⟩,
    ⟨{ key := "list", type := .array, aliases := ["s"] },
      .ofRose (Draft.scalar "[0]" (.boolean true))⟩]

theorem emitTree_exact_mergedList :
    mergedList.Sound ∧ ¬AllAdmissible [] mergedList.visited ∧
      (∃ before r after, mergedList.visited = before ++ r :: after ∧ AllAdmissible [] before ∧
        Refusal (anchorsOf (before ++ [r])) r (mergedList.pathText r.label.handle)
          (.unrepresentable "default.list" .arrayMerge)) ∧
      ∃ text, emitTree false mergedList = .ok text := by
  have sound : mergedList.Sound := by decide +kernel
  have refused : emitTree true mergedList = .error (.unrepresentable "default.list" .arrayMerge) := by decide +kernel
  obtain ⟨ok, error, unchecked, -⟩ := emitTree_exact sound
  refine ⟨sound, fun all => ?_, (error _).1 refused, unchecked⟩
  obtain ⟨text, written⟩ := ok.2 all
  rw [refused] at written
  cases written

end Yaml

end LayeredConfig
