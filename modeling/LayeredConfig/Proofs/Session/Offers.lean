import LayeredConfig.Proofs.Session.Cascade
import LayeredConfig.Proofs.Session.Numbering

/-!
# Keys on offer are free, and can be used

Below a node of the environments that is no array, the offers are the `candidates` that no child is
keyed by: names of environments below the root, and elsewhere the keys of the default node at the path
of the node inside its environment (`schemaPath_eq`), led by `inherits` below an environment. So an
offer is a free key, and using it leaves the other offers as they were. An array offers its next
position.

Main statement: `Session.offers_exact`.
-/

namespace LayeredConfig

/-! ## The way to a node and what is added below it -/

theorem Forest.trail?_adjust {α : Type} (p : α → Bool) (h : Forest α → Forest α) (f : Forest α) :
    (f.adjust p h).trail? p = f.trail? p := by
  induction f with
  | nil => rfl
  | cons a cs ss ihc ihs =>
    rw [adjust, trail?, trail?, ihs]
    by_cases here : p a
    · rw [if_pos here, if_pos here]
    · rw [if_neg here, if_neg here, if_neg here, ihc]

namespace Tree

variable {t : Tree} {h : Handle} {d : NodeData}

/-- The keys of the children of a node, in order. -/
def childKeys (t : Tree) (h : Handle) : List String := (t.below h).rootLabels.map (·.data.key)

theorem length_childKeys (t : Tree) (h : Handle) :
    (t.childKeys h).length = (t.children h).length := by
  rw [childKeys, List.length_map, Tree.children, List.length_map]

theorem isNone_child?_iff (there : t.contains h) (key : String) :
    (t.child? h key).isNone ↔ key ∉ t.childKeys h := by
  obtain ⟨r, hr⟩ := Option.isSome_iff_exists.1 there
  rw [Option.isNone_iff_eq_none, child?_eq_none_iff hr, childKeys, below_of_find? hr]
  simp

theorem trail_graft (t : Tree) (h : Handle) (draft : Draft) :
    (t.graft h draft).1.trail h = t.trail h := by
  unfold graft graftAll
  by_cases there : t.contains h
  · rw [if_pos there]
    exact congrArg (·.getD []) (Forest.trail?_adjust _ _ t.forest)
  · rw [if_neg there]

theorem level_graft (t : Tree) (h : Handle) (draft : Draft) :
    (t.graft h draft).1.level h = t.level h := by
  rw [level, trail_graft, level]

theorem label_graftAll (t : Tree) (h : Handle) (drafts : Forest NodeData) :
    (t.graftAll h drafts).1.top.label = t.top.label := by
  unfold graftAll
  split <;> rfl

theorem root_graft (t : Tree) (h : Handle) (draft : Draft) : (t.graft h draft).1.root = t.root :=
  congrArg Entry.handle (label_graftAll t h (.ofRose draft))

theorem below_graft_leaf (there : t.contains h) (d : NodeData) :
    (t.graft h ⟨d, .nil⟩).1.below h = t.below h ++ .cons ⟨t.next, d⟩ .nil .nil := by
  obtain ⟨r, hr⟩ := Option.isSome_iff_exists.1 there
  have found : (t.graft h ⟨d, .nil⟩).1.find? h =
      some ⟨r.label, r.children ++ .cons ⟨t.next, d⟩ .nil .nil⟩ := by
    unfold graft graftAll
    rw [if_pos there]
    show (t.adjust h _).forest.find? _ = _
    rw [forest_adjust, Forest.find?_adjust, show t.forest.find? (·.handle == h) = some r from hr,
      Option.map_some]
    rfl
  rw [below_of_find? found, below_of_find? hr]

/-- On level zero there is the root and nothing else. -/
theorem Sound.level_eq_zero_iff (ht : t.Sound) (there : t.contains h) :
    t.level h = 0 ↔ h = t.root := by
  constructor
  · intro top
    by_contra below
    obtain ⟨p, hp⟩ := ht.exists_parent (contains_iff.1 there) below
    rw [level, Nat.sub_eq_zero_iff_le] at top
    have none : (t.trail h).dropLast = [] := by
      rw [← List.length_eq_zero_iff, List.length_dropLast]
      omega
    rw [parent?, none] at hp
    cases hp
  · rintro rfl
    simp [level, trail, forest, Forest.ofRose, Forest.trail?, root]

end Tree

namespace Configuration

variable {c : Configuration} {h : Handle} {data label : NodeData} {known : List String}
  {o : KeyOption}

/-! ## The path inside an environment -/

theorem reverse_climb (way : List Entry) :
    (climb way).reverse =
      (List.zipWith Tree.alignedKey way.reverse way.reverse.tail).drop 1 := by
  induction way with
  | nil => rfl
  | cons node way ih =>
    cases way with
    | nil => rfl
    | cons parent above =>
      have path := Tree.zipWith_tail_append Tree.alignedKey above.reverse [node] parent
      rw [List.reverse_cons, List.reverse_cons, List.append_assoc, List.singleton_append, path, climb]
      cases above with
      | nil => rfl
      | cons a above =>
        rw [if_neg (by simp), List.reverse_cons, ih, List.reverse_cons, List.drop_append_of_le_length]
        · rfl
        · simp

/-- The walk up to the environment meets the keys of the alignment path but for the environment's. -/
theorem schemaPath_eq (c : Configuration) (h : Handle) :
    c.schemaPath h = c.environments.localPath h := by
  rw [schemaPath, reverse_climb, List.reverse_reverse, List.drop_one]
  rfl

/-! ## Offers below a node -/

/-- The keys that children of a node of the environments may have, whether a child has them or not. -/
def candidates (c : Configuration) (h : Handle) (known : List String) : List KeyOption :=
  if c.environments.level h = 0 then known.map (⟨·, .object⟩)
  else (if c.environments.level h = 1 then [⟨inheritsKey, .string⟩] else []) ++ c.schemaOptions h

/-- An array offers its next position, another node the candidates that no child is keyed by. -/
theorem environmentOptions_eq (c : Configuration) (h : Handle) (data : NodeData)
    (known : List String) :
    c.environmentOptions h data false false known =
      if c.environments.level h ≠ 0 ∧ c.environments.isArray h then
        [⟨itemKey (c.environments.childKeys h).length, (c.environments.itemType? h).getD .string⟩]
      else (c.candidates h known).filter (!(c.environments.childKeys h).contains ·.key) := by
  have unfolded : c.environmentOptions h data false false known =
      if c.environments.level h = 0 then
        (known.filter (!(c.environments.childKeys h).contains ·)).map (⟨·, .object⟩)
      else if c.environments.isArray h then
        [⟨itemKey (c.environments.childKeys h).length, (c.environments.itemType? h).getD .string⟩]
      else (if c.environments.level h = 1 && !(c.environments.childKeys h).contains inheritsKey then
          [⟨inheritsKey, .string⟩] else []) ++
        (c.schemaOptions h).filter (!(c.environments.childKeys h).contains ·.key) := rfl
  rw [unfolded, candidates]
  by_cases top : c.environments.level h = 0
  · rw [if_pos top, if_pos top, if_neg fun array => array.1 top, List.filter_map]
    rfl
  · rw [if_neg top, if_neg top]
    by_cases array : c.environments.isArray h
    · rw [if_pos array, if_pos ⟨top, array⟩]
    · have object : ¬(c.environments.level h ≠ 0 ∧ c.environments.isArray h) := fun both =>
        array both.2
      rw [if_neg array, if_neg object, List.filter_append]
      by_cases first : c.environments.level h = 1
      · simp only [first, decide_true, Bool.true_and, if_true, List.filter_cons, List.filter_nil]
      · simp only [first, decide_false, Bool.false_and, Bool.false_eq_true, if_false,
          List.filter_nil]

/-- The configuration with a childless node added below a node of the environments. -/
def withChild (c : Configuration) (h : Handle) (d : NodeData) : Configuration :=
  { c with environments := (c.environments.graft h ⟨d, .nil⟩).1 }

theorem Sound.withChild (hc : c.Sound) (h : Handle) (d : NodeData) : (c.withChild h d).Sound :=
  ⟨hc.1, hc.2.graft h _⟩

theorem childKeys_withChild (there : c.environments.contains h) (d : NodeData) :
    (c.withChild h d).environments.childKeys h = c.environments.childKeys h ++ [d.key] := by
  unfold Tree.childKeys withChild
  rw [Tree.below_graft_leaf there, Forest.rootLabels_append, List.map_append]
  rfl

theorem candidates_withChild (c : Configuration) (h : Handle) (d : NodeData)
    (known : List String) : (c.withChild h d).candidates h known = c.candidates h known := by
  have path : (c.withChild h d).schemaPath h = c.schemaPath h := by
    unfold schemaPath withChild
    rw [Tree.trail_graft]
  unfold candidates schemaOptions
  rw [path]
  unfold withChild
  rw [Tree.level_graft]

theorem isArray_withChild (c : Configuration) (h : Handle) (d : NodeData) :
    (c.withChild h d).environments.isArray h = c.environments.isArray h := by
  unfold withChild Tree.isArray Tree.graft
  rw [Tree.data?_graftAll_self]

/-- The first item of an array gives the type that is offered, also if it was offered itself. -/
theorem itemType?_withChild (there : c.environments.contains h) {d : NodeData}
    (type : d.type = (c.environments.itemType? h).getD .string) :
    ((c.withChild h d).environments.itemType? h).getD .string = d.type := by
  unfold Tree.itemType? at type ⊢
  rw [isArray_withChild]
  split
  · rename_i array
    rw [if_pos array] at type
    rw [withChild, Tree.below_graft_leaf there, Forest.rootLabels_append]
    cases items : (c.environments.below h).rootLabels with
    | nil => rfl
    | cons e es =>
      rw [items] at type
      exact type.symm
  · rename_i object
    rw [if_neg object] at type
    exact type.symm

/-! ## Offers and what is added -/

/-- The nodes below which something can be added. -/
structure Extensible (c : Configuration) (h : Handle) (data : NodeData) : Prop where
  known : c.environments.data? h = some data
  container : data.type.isContainer
  /-- The environments are the properties of an object. -/
  root : h = c.environments.root → data.type = .object

namespace Extensible

variable (hx : c.Extensible h data)

include hx

theorem contains : c.environments.contains h := Tree.contains_of_data? hx.known

theorem isArray_iff : c.environments.isArray h ↔ data.type = .array :=
  Tree.isArray_of_data? hx.known

theorem level_ne_zero (hc : c.Sound) (array : data.type = .array) : c.environments.level h ≠ 0 := by
  intro top
  rw [hx.root ((hc.2.level_eq_zero_iff hx.contains).1 top)] at array
  cases array

theorem options_eq (hc : c.Sound) (known : List String) :
    c.environmentOptions h data false false known =
      if data.type = .array then
        [⟨itemKey (c.environments.childKeys h).length, (c.environments.itemType? h).getD .string⟩]
      else (c.candidates h known).filter (!(c.environments.childKeys h).contains ·.key) := by
  rw [environmentOptions_eq]
  by_cases array : data.type = .array
  · rw [if_pos array, if_pos ⟨hx.level_ne_zero hc array, hx.isArray_iff.2 array⟩]
  · rw [if_neg array, if_neg fun both => array (hx.isArray_iff.1 both.2)]

theorem withChild (d : NodeData) : (c.withChild h d).Extensible h data where
  known := (Tree.data?_graftAll_self _ h (.ofRose ⟨d, .nil⟩)).trans hx.known
  container := hx.container
  root top := hx.root (top.trans (c.environments.root_graft h _))

/-- What is offered is a free key, or the next position of an array. -/
theorem free_of_offered (hc : c.Sound)
    (ho : o ∈ c.environmentOptions h data false false known) :
    if data.type = .array then
      o = ⟨itemKey (c.environments.children h).length, (c.environments.itemType? h).getD .string⟩
    else c.environments.child? h o.key = none := by
  rw [hx.options_eq hc] at ho
  split at ho
  · rename_i array
    rw [if_pos array, ← Tree.length_childKeys]
    exact List.mem_singleton.1 ho
  · rename_i object
    rw [if_neg object]
    rw [← Option.isNone_iff_eq_none, Tree.isNone_child?_iff hx.contains]
    simpa using (List.mem_filter.1 ho).2

/-- An offer is admitted as it is. -/
theorem admittedBelow_offered (hc : c.Sound)
    (ho : o ∈ c.environmentOptions h data false false known) (key : label.key = o.key)
    (value : label.value = none) (path : String) :
    admittedBelow c.environments h data path ⟨label, .nil⟩ = .ok ⟨label, .nil⟩ := by
  have free := hx.free_of_offered hc ho
  have container : ¬data.type.isScalar := by
    have container := hx.container
    rw [ValueType.isContainer] at container
    simpa using container
  have fits : Draft.sanitized ⟨label, .nil⟩ = .ok ⟨label, .nil⟩ := by
    unfold Draft.sanitized
    dsimp only
    rw [value]
    split
    · rw [← value]
      split <;> rfl
    · rfl
  have same : (if data.type = .array then itemKey (c.environments.children h).length
      else label.key) = label.key := by
    split
    · rename_i array
      rw [if_pos array] at free
      rw [key, free]
    · rfl
  have unused : ¬(data.type ≠ .array ∧ (c.environments.child? h label.key).isSome) := by
    rintro ⟨object, used⟩
    rw [if_neg object] at free
    rw [key, free] at used
    cases used
  unfold admittedBelow
  dsimp only
  rw [if_neg container, same, if_neg unused]
  exact fits

/-- The offers once one of them is used. -/
theorem options_withChild (hc : c.Sound)
    (ho : o ∈ c.environmentOptions h data false false known) (key : label.key = o.key)
    (type : label.type = o.type) :
    (c.withChild h label).environmentOptions h data false false known =
      if data.type = .array then
        [⟨itemKey ((c.environments.children h).length + 1), o.type⟩]
      else (c.environmentOptions h data false false known).filter (·.key ≠ o.key) := by
  rw [(hx.withChild label).options_eq (hc.withChild h label), childKeys_withChild hx.contains,
    candidates_withChild]
  split
  · rename_i array
    have free := hx.free_of_offered hc ho
    rw [if_pos array] at free
    have first : label.type = (c.environments.itemType? h).getD .string := by rw [type, free]
    rw [itemType?_withChild hx.contains first, type, List.length_append, Tree.length_childKeys]
    rfl
  · rename_i object
    rw [hx.options_eq hc, if_neg object, List.filter_filter]
    refine List.filter_congr fun a _ => ?_
    simp [key, Bool.and_comm]

/-- Below the root, and but for `inherits`, an object offers the keys of the default node at its path
that no child has. -/
theorem keys_of_options (hc : c.Sound) (object : data.type = .object)
    (below : h ≠ c.environments.root) :
    ((c.environmentOptions h data false false known).map (·.key)).filter (· ≠ inheritsKey) =
      ((c.default.findAligned? c.default.root (c.environments.localPath h)).elim []
        c.default.childKeys).filter
          fun k => k ≠ inheritsKey ∧ (c.environments.child? h k).isNone := by
  have deeper : c.environments.level h ≠ 0 := fun top =>
    below ((hc.2.level_eq_zero_iff hx.contains).1 top)
  have schema : (c.schemaOptions h).map (·.key) =
      (c.default.findAligned? c.default.root (c.environments.localPath h)).elim []
        c.default.childKeys := by
    rw [schemaOptions, schemaPath_eq]
    cases c.default.findAligned? c.default.root (c.environments.localPath h) with
    | none => rfl
    | some d => exact List.map_map
  rw [hx.options_eq hc, if_neg (by rw [object]; decide), candidates, if_neg deeper, ← schema,
    List.filter_append, List.map_append, List.filter_append]
  have lead : (((if c.environments.level h = 1 then [⟨inheritsKey, .string⟩] else [] :
      List KeyOption).filter (!(c.environments.childKeys h).contains ·.key)).map (·.key)).filter
        (· ≠ inheritsKey) = [] := by
    refine List.filter_eq_nil_iff.2 fun key hk => ?_
    obtain ⟨o, ho, rfl⟩ := List.mem_map.1 hk
    have offered := (List.mem_filter.1 ho).1
    split at offered
    · rw [List.mem_singleton.1 offered]
      simp
    · cases offered
  rw [lead, List.nil_append, List.filter_map, List.filter_map, List.filter_filter]
  refine congrArg (List.map _) (List.filter_congr fun o _ => ?_)
  have free := Tree.isNone_child?_iff hx.contains o.key
  rw [Option.isNone_iff_eq_none] at free
  simp [free]

end Extensible

end Configuration

namespace Session

variable {s : Session} {p : Composition} {h : Handle} {data label : NodeData}

/-- A node of the environments that is composed is given its offers. -/
theorem compose_offers (file : s.environmentsFile = false)
    (hx : s.config.Extensible h data) :
    ∃ p, s.compose ⟨.environments, h⟩ false = (.ok p, { s with state := .composing p }) ∧
      p.editing = false ∧ p.node = ⟨.environments, h⟩ ∧
      p.options = s.config.environmentOptions h data false false s.known := by
  have there : s.config.contains ⟨.environments, h⟩ := by
    rw [Configuration.contains, Configuration.data?_of_tree? rfl, hx.known]
    rfl
  refine ⟨_, if_pos there, rfl, rfl, ?_⟩
  dsimp only
  unfold Configuration.keyOptions
  rw [if_pos rfl, hx.known, file]

/-- A childless draft that is admitted becomes a child, and nothing else changes but the state. -/
theorem commit_withChild (composing : s.state = .composing p) (adding : p.editing = false)
    (node : p.node = ⟨.environments, h⟩) (hd : s.config.environments.data? h = some data)
    (admitted : Configuration.admittedBelow s.config.environments h data
      (s.config.pathText ⟨.environments, h⟩) ⟨label, .nil⟩ = .ok ⟨label, .nil⟩) :
    ∃ after, s.commit ⟨label, .nil⟩ = (.ok ⟨.environments, s.config.environments.next⟩, after) ∧
      after.config = s.config.withChild h label ∧ after.known = s.known ∧
      after.environmentsFile = s.environmentsFile := by
  have run : Editing.apply (if p.editing then Configuration.edit p.node ⟨label, .nil⟩ s.markers
      else Configuration.addBelow p.node ⟨label, .nil⟩) s.config =
        (.ok ⟨.environments, s.config.environments.next⟩, s.config.withChild h label) := by
    rw [adding, node]
    exact Configuration.addBelow_of_admitted rfl hd admitted
  exact ⟨_, commit_of_composing composing ⟨label, .nil⟩ run, rfl, rfl, rfl⟩

/-- **Every key on offer can be used, and offers follow the path of a node.** Below any node of the
environments that may have children, the environments themselves being the properties of an object,
each offer is admitted as it is: a childless draft with its key and type becomes the last child. An
object then offers what it offered but for that key, an array the next position. Below the root, an
object offers the keys that the default node at its path inside its environment has and it lacks, and
perhaps `inherits`. -/
theorem offers_exact (hs : s.config.Sound) (file : s.environmentsFile = false)
    (hd : s.config.environments.data? h = some data) (container : data.type.isContainer)
    (root : h = s.config.environments.root → data.type = .object) :
    let envs := s.config.environments
    let default := s.config.default
    ∃ p s', s.compose ⟨.environments, h⟩ false = (.ok p, s') ∧
      (∀ o ∈ p.options, ∀ label : NodeData, label.key = o.key → label.type = o.type →
        label.value = none → ∃ added after p' s'',
          s'.commit ⟨label, .nil⟩ = (.ok ⟨.environments, added⟩, after) ∧
          after.config.environments.children h = envs.children h ++ [added] ∧
          after.config.environments.data? added = some label ∧
          after.compose ⟨.environments, h⟩ false = (.ok p', s'') ∧
          p'.options =
            if data.type = .array then [⟨itemKey ((envs.children h).length + 1), o.type⟩]
            else p.options.filter (·.key ≠ o.key)) ∧
      (data.type = .object → h ≠ envs.root →
        (p.options.map (·.key)).filter (· ≠ inheritsKey) =
          ((default.findAligned? default.root (envs.localPath h)).elim []
            default.childKeys).filter fun k => k ≠ inheritsKey ∧ (envs.child? h k).isNone) := by
  have hx : s.config.Extensible h data := ⟨hd, container, root⟩
  intro envs default
  obtain ⟨p, composed, adding, node, options⟩ := compose_offers file hx
  refine ⟨p, _, composed, fun o ho label key type value => ?_, fun object below => ?_⟩
  · rw [options] at ho ⊢
    have admitted := hx.admittedBelow_offered hs ho key value (s.config.pathText ⟨.environments, h⟩)
    obtain ⟨after, committed, config, known, sameFile⟩ :=
      commit_withChild (s := { s with state := .composing p }) rfl adding node hd admitted
    have hx' : after.config.Extensible h data := by
      rw [config]
      exact hx.withChild label
    obtain ⟨p', again, -, -, options'⟩ := compose_offers (sameFile.trans file) hx'
    refine ⟨envs.next, after, p', _, committed, ?_, ?_, again, ?_⟩
    · rw [config]
      exact Tree.children_graft hx.contains _
    · rw [config]
      exact (hs.2.data?_graft_leaf hx.contains label envs.next).trans (if_pos rfl)
    · rw [options', config, known]
      exact hx.options_withChild hs ho key type
  · rw [options]
    exact hx.keys_of_options hs object below

/-- An environment overrides one property of an item of an array, of two. -/
def overriddenItem : Session :=
  overriding [.array "list" [.object "" [.number "a" 1, .number "b" 2]]]
    [.array "list" [.object "" [.number "a" 3]]]

theorem offers_exact_item :
    ∃ p s', overriddenItem.compose ⟨.environments, 3⟩ false = (.ok p, s') ∧
      (∀ o ∈ p.options, ∃ added after,
        s'.commit ⟨{ key := o.key, type := o.type }, .nil⟩ = (.ok ⟨.environments, added⟩, after) ∧
          after.config.environments.children 3 = [4, added]) ∧
      (p.options.map (·.key)).filter (· ≠ inheritsKey) = ["b"] := by
  obtain ⟨p, s', composed, used, keys⟩ :=
    offers_exact (s := overriddenItem) (h := 3) (by decide +kernel) rfl rfl rfl
      (fun top => absurd top (by decide))
  refine ⟨p, s', composed, fun o ho => ?_, (keys rfl (by decide)).trans (by decide +kernel)⟩
  obtain ⟨added, after, -, -, committed, children, -⟩ :=
    used o ho ⟨o.key, o.type, none, none, [], none⟩ rfl rfl rfl
  exact ⟨added, after, committed, children⟩

end Session

/-! ## The root of the environments -/

namespace Tree

variable {t t' : Tree}

theorem SameWays.type_root (same : t.SameWays t') :
    t'.top.label.data.type = t.top.label.data.type := by
  have types := congrArg (fun r : Rose Entry => r.label.data.type)
    (show t'.top.map Entry.bare = t.top.map Entry.bare from same)
  exact types

end Tree

namespace Configuration

variable {c : Configuration} {n : NodeRef} {t : Tree} {live : NodeData} {draft new : Draft}

theorem type_root_alignEdit (hc : c.Sound) (hd : c.default.data? h = some live) (new : NodeData)
    (m : Markers) :
    (c.alignEdit ⟨.default, h⟩ live new m).environments.top.label.data.type =
      c.environments.top.label.data.type := by
  unfold alignEdit
  split
  · split
    · show (c.environments.removeOverrides _).1.top.label.data.type = _
      rw [hc.2.removeOverrides_eq_takeOut]
      rfl
    · split
      · rw [(environments_alignKeyRename_sameWays hd new.key m).type_root]
        exact Tree.type_keyedAs _ _ _
      · rfl
  · rfl

theorem type_root_writeDraft {h : Handle} (hd : t.data? h = some live)
    (type : new.label.type = live.type) :
    (writeDraft t h new).top.label.data.type = t.top.label.data.type := by
  have written : (t.modify h fun _ => new.label).top.label.data.type = t.top.label.data.type := by
    show (if t.root == h then ({ t.top.label with data := new.label } : Entry)
      else t.top.label).data.type = _
    by_cases top : h = t.root
    · have known : t.data? t.root = some t.top.label.data := by
        rw [Tree.data?, Tree.find?_root, Option.map_some]
      rw [top, known] at hd
      rw [if_pos (by simpa using top.symm)]
      exact type.trans (congrArg NodeData.type (Option.some.inj hd)).symm
    · rw [if_neg (by simpa using fun same => top same.symm)]
  unfold writeDraft
  dsimp only
  split
  · exact written
  · split
    · exact written
    · rw [Tree.replace, Tree.label_graftAll]
      exact written

end Configuration

namespace Session

variable {s : Session}

/-- Where the environments are the properties of an object, they stay so: no step changes the type of
their root. -/
theorem type_root_perform (hs : s.config.Sound) (a : Action) :
    (s.perform a).config.environments.top.label.data.type =
      s.config.environments.top.label.data.type := by
  have effect := effect_perform s a
  generalize (s.perform a).config = c' at effect ⊢
  cases effect with
  | nothing => rfl
  | @added _ parent t data new adds =>
    obtain ⟨kind, h⟩ := parent
    cases kind with
    | environments =>
      exact congrArg (·.data.type) (Tree.label_graftAll s.config.environments h (.ofRose new))
    | _ => rfl
  | @edited _ n t live new edits =>
    unfold Configuration.edited
    rw [(Configuration.sameWays_alignAnchor _ _ _).2.type_root]
    obtain ⟨kind, h⟩ := n
    obtain ⟨-, tree, known, admitted⟩ := edits
    cases kind with
    | default =>
      cases tree
      exact Configuration.type_root_alignEdit hs known new.label s.markers
    | environments =>
      cases tree
      exact Configuration.type_root_writeDraft known
        (Configuration.admittedEdit_type admitted (by simp))
    | detached => cases tree
  | @deleted _ n t data above deletes ha =>
    have left : (s.config.deleted n t data above).tree? .environments = some _ :=
      Configuration.tree?_deleted hs deletes.tree deletes.parent rfl
    rw [Option.some.inj left]
    rfl

theorem type_root_run (hs : s.config.Sound) (actions : List Action) :
    (s.run actions).config.environments.top.label.data.type =
      s.config.environments.top.label.data.type := by
  refine (run_induction (P := fun after => after.config.Sound ∧
    after.config.environments.top.label.data.type = s.config.environments.top.label.data.type)
    ⟨hs, rfl⟩ fun after a _ ⟨sound, type⟩ => ⟨sound_perform sound a, ?_⟩).2
  rw [type_root_perform sound, type]

end Session

end LayeredConfig
