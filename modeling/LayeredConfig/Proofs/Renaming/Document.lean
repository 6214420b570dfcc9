import LayeredConfig.Alignment
import LayeredConfig.Proofs.Compile.Expansion
import LayeredConfig.Proofs.Compile.Lineage
import LayeredConfig.Proofs.Forest.Relabelled
import LayeredConfig.Proofs.Tree.Handles
import Mathlib.Logic.Equiv.Defs

/-!
# Documents under new names

A relabelling gives every key and every anchor a new name, different names for different ones, and
turns every string into another. What happens to a configuration before references are read goes by
whether names are equal, so it happens to the relabelled configuration in the same way: layers are
merged (`merged_relabelled`) and aliases expanded (`expanded_relabelled`) to what the relabelling
makes of the old results.
-/

namespace LayeredConfig

theorem eraseDups_map {f : String → String} (hf : f.Injective) (names : List String) :
    (names.map f).eraseDups = names.eraseDups.map f := by
  cases names with
  | nil => rfl
  | cons name names =>
    have others : (names.map f).filter (fun b => !b == f name) =
        (names.filter fun b => !b == name).map f := by
      rw [List.filter_map]
      congr 1
      refine List.filter_congr fun b _ => ?_
      simp [hf.eq_iff]
    rw [List.map_cons, List.eraseDups_cons, List.eraseDups_cons, List.map_cons, others,
      eraseDups_map hf]
termination_by names.length
decreasing_by exact Nat.lt_succ_of_le (List.length_filter_le _ _)

/-- New names for keys and anchors, and new texts. The key `inherits` stays. -/
structure Relabelling where
  key : Equiv.Perm String
  anchor : Equiv.Perm String
  text : String → String
  inherits_fixed : key inheritsKey = inheritsKey

namespace Relabelling

/-- A value under a relabelling. -/
def scalar (ρ : Relabelling) : Scalar → Scalar
  | .string text => .string (ρ.text text)
  | v => v

/-- The data of a node under a relabelling. -/
def data (ρ : Relabelling) (d : NodeData) : NodeData :=
  { d with
    key := ρ.key d.key
    value := d.value.map ρ.scalar
    anchor := d.anchor.map ρ.anchor
    aliases := d.aliases.map ρ.anchor }

/-- The shape of a node under a relabelling. -/
def shape (ρ : Relabelling) : Shape → Shape
  | .scalar history => .scalar (history.map (Option.map ρ.scalar))
  | .object => .object
  | .array => .array

/-- A node of merged layers under a relabelling. -/
def layered (ρ : Relabelling) (l : Layered) : Layered where
  key := ρ.key l.key
  anchors := l.anchors.map ρ.anchor
  aliases := l.aliases.map ρ.anchor
  shape := ρ.shape l.shape

/-- A step under a relabelling. -/
def step (ρ : Relabelling) : Step → Step
  | .key name => .key (ρ.key name)
  | .item position => .item position

/-- A place under a relabelling. -/
def place (ρ : Relabelling) (p : Place) : Place := p.map ρ.step

/-- The source of an anchor under a relabelling. -/
def source (ρ : Relabelling) : AnchorSource → AnchorSource
  | .place p => .place (ρ.place p)
  | .content r => .content (r.map ρ.layered)

/-- A tree under a relabelling. -/
def tree (ρ : Relabelling) (t : Tree) : Tree := t.modifyAll ρ.data

/-- A configuration under a relabelling. -/
def configuration (ρ : Relabelling) (c : Configuration) : Configuration where
  default := ρ.tree c.default
  environments := ρ.tree c.environments

variable (ρ : Relabelling)

theorem shape_eq_object_iff {s : Shape} : ρ.shape s = .object ↔ s = .object := by
  cases s <;> simp [shape]

theorem key_eq_inherits_iff {k : String} : ρ.key k = inheritsKey ↔ k = inheritsKey := by
  rw [← ρ.inherits_fixed, ρ.key.apply_eq_iff_eq, ρ.inherits_fixed]

theorem key_layered_iff (l l' : Layered) :
    (ρ.layered l).key = (ρ.layered l').key ↔ l.key = l'.key := ρ.key.apply_eq_iff_eq

/-! ## Layers -/

theorem ofData_data (d : NodeData) : Layered.ofData (ρ.data d) = ρ.layered (.ofData d) := by
  obtain ⟨key, type, value, anchor, aliases, comment⟩ := d
  cases anchor <;> cases type <;> rfl

theorem layered_forest (f : Forest NodeData) : (f.map ρ.data).layered = f.layered.map ρ.layered := by
  induction f with
  | nil => rfl
  | cons d cs ss ihc ihs =>
    have type : (ρ.data d).type = d.type := rfl
    rw [Forest.map, Forest.layered, Forest.layered, Forest.map, ofData_data, ihc, ihs, type]
    cases d.type.isScalar <;> rfl

theorem layered_rose (r : Rose NodeData) : (r.map ρ.data).layered = r.layered.map ρ.layered := by
  have type : (ρ.data r.label).type = r.label.type := rfl
  unfold Rose.layered
  rw [Rose.map, ofData_data, layered_forest, type]
  cases r.label.type.isScalar <;> rfl

theorem joinAnchors_map (lower upper : List String) :
    Layered.joinAnchors (lower.map ρ.anchor) (upper.map ρ.anchor) =
      (Layered.joinAnchors lower upper).map ρ.anchor := by
  unfold Layered.joinAnchors
  induction upper generalizing lower with
  | nil => rfl
  | cons a upper ih =>
    rw [List.map_cons, List.foldl_cons, List.foldl_cons, ← ih]
    congr 1
    simp only [List.contains_eq_mem, List.mem_map_of_injective ρ.anchor.injective]
    split
    · rfl
    · rw [List.map_append]; rfl

theorem under_layered (lower upper : Layered) :
    (ρ.layered lower).under (ρ.layered upper) = ρ.layered (lower.under upper) := by
  unfold Layered.under layered
  simp only [joinAnchors_map]
  cases lower.shape <;> cases upper.shape <;>
    simp only [shape, List.map_append, List.isEmpty_map]
  split <;> rfl

theorem updateRoot_map {k : String} {h h' : Rose Layered → Rose Layered}
    (hh : ∀ r, h' (r.map ρ.layered) = (h r).map ρ.layered) (fresh : Rose Layered)
    (f : Forest Layered) :
    (f.map ρ.layered).updateRoot (ρ.key k) h' (fresh.map ρ.layered) =
      (f.updateRoot k h fresh).map ρ.layered := by
  induction f with
  | nil => rfl
  | cons l cs ss _ ih =>
    rw [Forest.map, Forest.updateRoot, Forest.updateRoot, ih]
    have keys : (ρ.layered l).key = ρ.key k ↔ l.key = k := ρ.key.apply_eq_iff_eq
    by_cases same : l.key = k
    · rw [if_pos same, if_pos (keys.2 same)]
      have := hh ⟨l, cs⟩
      rw [Rose.map] at this
      rw [this]
      rfl
    · rw [if_neg same, if_neg fun h => same (keys.1 h)]
      rfl

theorem overlay_forest (lower upper : Forest Layered) :
    (lower.map ρ.layered).overlay (upper.map ρ.layered) =
      (lower.overlay upper).map ρ.layered := by
  induction upper generalizing lower with
  | nil => rfl
  | cons u ucs uss ihc ihs =>
    rw [Forest.map, Forest.overlay, Forest.overlay, ← ihs]
    congr 1
    refine updateRoot_map ρ (fun r => ?_) ⟨u, ucs⟩ lower
    have both : (r.map ρ.layered).label.shape = .object ∧ (ρ.layered u).shape = .object ↔
        r.label.shape = .object ∧ u.shape = .object :=
      and_congr ρ.shape_eq_object_iff ρ.shape_eq_object_iff
    simp only [both]
    rw [Rose.map, Rose.map, under_layered]
    dsimp only
    rw [ihc]
    split <;> rfl

theorem overlay_rose (lower upper : Rose Layered) :
    (lower.map ρ.layered).overlay (upper.map ρ.layered) = (lower.overlay upper).map ρ.layered := by
  have both : (lower.map ρ.layered).label.shape = .object ∧
      (upper.map ρ.layered).label.shape = .object ↔
      lower.label.shape = .object ∧ upper.label.shape = .object :=
    and_congr ρ.shape_eq_object_iff ρ.shape_eq_object_iff
  unfold Rose.overlay
  simp only [both]
  rw [Rose.map, Rose.map, Rose.map, under_layered, overlay_forest]
  dsimp only
  split <;> rfl

theorem without_inherits (r : Rose Layered) :
    (r.map ρ.layered).without inheritsKey = (r.without inheritsKey).map ρ.layered := by
  have object : (r.map ρ.layered).label.shape = .object ↔ r.label.shape = .object :=
    ρ.shape_eq_object_iff
  unfold Rose.without
  simp only [object]
  split
  · refine congrArg (Rose.mk _) (Forest.filterRoots_map (fun l => ?_) _)
    have := ρ.key_eq_inherits_iff (k := l.key)
    rw [Bool.eq_iff_iff]
    simp [layered, this]
  · rfl

/-! ## Trees and configurations -/

theorem map_data_top (t : Tree) :
    (ρ.tree t).top.map (·.data) = (t.top.map (·.data)).map ρ.data := by
  rw [tree, Tree.modifyAll, Rose.map_map, Rose.map_map]
  rfl

/-- An entry of a tree under a relabelling. -/
def entry (ρ : Relabelling) (e : Entry) : Entry := { e with data := ρ.data e.data }

theorem find?_tree (t : Tree) (h : Handle) :
    (ρ.tree t).find? h = (t.find? h).map (Rose.map ρ.entry) :=
  Forest.find?_map ρ.entry (fun _ => rfl) t.forest

theorem data?_tree (t : Tree) (h : Handle) : (ρ.tree t).data? h = (t.data? h).map ρ.data := by
  rw [Tree.data?, find?_tree, Option.map_map, Tree.data?, Option.map_map]
  rfl

theorem extract_tree (t : Tree) (h : Handle) :
    (ρ.tree t).extract h = (t.extract h).map (Rose.map ρ.data) := by
  rw [Tree.extract, find?_tree, Option.map_map, Tree.extract, Option.map_map]
  congr 1
  funext r
  exact (Rose.map_map Entry.data ρ.entry r).trans (Rose.map_map ρ.data Entry.data r).symm

theorem layer_configuration {c : Configuration} {h : Handle} (hh : c.environments.contains h) :
    (ρ.configuration c).layer h = (c.layer h).map ρ.layered := by
  obtain ⟨r, found⟩ := Option.isSome_iff_exists.1 hh
  unfold Configuration.layer
  rw [configuration, extract_tree, Tree.extract, found, Option.map_some, Option.map_some]
  dsimp only
  rw [layered_rose, without_inherits]

/-- The layers of the relabelled configuration are merged to the relabelled document. -/
theorem merged_relabelled {c : Configuration} {lineage : List Handle}
    (h : ∀ x ∈ lineage, c.environments.contains x) :
    (ρ.configuration c).merged lineage = (c.merged lineage).map ρ.layered := by
  have overlaid : ∀ (layers : List (Rose Layered)) (base : Rose Layered),
      (layers.map (Rose.map ρ.layered)).foldl .overlay (base.map ρ.layered) =
        (layers.foldl .overlay base).map ρ.layered := by
    intro layers
    induction layers with
    | nil => exact fun _ => rfl
    | cons layer layers ih =>
      intro base
      rw [List.map_cons, List.foldl_cons, overlay_rose, ih, List.foldl_cons]
  have layers : lineage.map (ρ.configuration c).layer =
      (lineage.map c.layer).map (Rose.map ρ.layered) := by
    rw [List.map_map]
    exact List.map_congr_left fun x hx => ρ.layer_configuration (h x hx)
  unfold Configuration.merged
  rw [layers, show (ρ.configuration c).default = ρ.tree c.default from rfl, map_data_top,
    layered_rose, overlaid]

/-! ## Anchors -/

theorem step_layered (parent : Shape) (position : Nat) (l : Layered) :
    (ρ.shape parent).step position (ρ.layered l) = ρ.step (parent.step position l) := by
  cases parent <;> rfl

theorem place_concat (p : Place) (s : Step) : ρ.place p ++ [ρ.step s] = ρ.place (p ++ [s]) := by
  rw [place, place, List.map_append]
  rfl

theorem child?_layered (r : Rose Layered) (s : Step) :
    (r.map ρ.layered).child? (ρ.step s) = (r.child? s).map (Rose.map ρ.layered) := by
  obtain ⟨l, cs⟩ := r
  unfold Rose.child?
  dsimp only [Rose.map, layered]
  cases l.shape <;> cases s <;> simp only [shape, step, Option.map_none]
  · exact Forest.findRoot?_map (fun l => by simp [layered]) cs
  · rw [Forest.roots_map, List.getElem?_map]

theorem at?_layered (r : Rose Layered) (p : Place) :
    (r.map ρ.layered).at? (ρ.place p) = (r.at? p).map (Rose.map ρ.layered) := by
  induction p generalizing r with
  | nil => rfl
  | cons s p ih =>
    rw [place, List.map_cons, Rose.at?, child?_layered, Rose.at?]
    cases r.child? s with
    | none => rfl
    | some r => exact ih r

/-- A declared anchor under a relabelling. -/
def declaration (ρ : Relabelling) (d : String × AnchorSource) : String × AnchorSource :=
  (ρ.anchor d.1, ρ.source d.2)

theorem anchorPlaces_forest (parent : Shape) (p : Place) (position : Nat) (f : Forest Layered) :
    (f.map ρ.layered).anchorPlaces (ρ.shape parent) (ρ.place p) position =
      (f.anchorPlaces parent p position).map ρ.declaration := by
  induction f generalizing parent p position with
  | nil => rfl
  | cons l cs ss ihc ihs =>
    rw [Forest.map, Forest.anchorPlaces, Forest.anchorPlaces, step_layered, place_concat,
      List.map_append, List.map_append, ihs, ← ihc]
    dsimp only [layered]
    rw [List.map_map, List.map_map]
    rfl

theorem anchorPlaces_rose (r : Rose Layered) :
    (r.map ρ.layered).anchorPlaces = r.anchorPlaces.map ρ.declaration := by
  unfold Rose.anchorPlaces
  rw [List.map_append, ← anchorPlaces_forest, List.map_map]
  dsimp only [Rose.map, layered]
  rw [List.map_map]
  rfl

theorem anchorContents_tree (t : Tree) :
    (ρ.tree t).anchorContents = t.anchorContents.map ρ.declaration := by
  have forest : (ρ.tree t).forest.map (·.data) = (t.forest.map (·.data)).map ρ.data := by
    rw [Tree.forest, Tree.forest, ← Rose.ofRose_map, map_data_top, Rose.ofRose_map, Rose.ofRose_map]
  unfold Tree.anchorContents
  rw [forest, Forest.subtrees_map, List.filterMap_map, List.map_filterMap]
  congr 1
  funext r
  have anchor : (r.map ρ.data).label.anchor = r.label.anchor.map ρ.anchor := rfl
  rw [Function.comp_apply, layered_rose, anchor]
  cases r.label.anchor <;> rfl

theorem lookup_declarations (ds : List (String × AnchorSource)) (name : String) :
    (ds.map ρ.declaration).lookup (ρ.anchor name) = (ds.lookup name).map ρ.source := by
  induction ds with
  | nil => rfl
  | cons d ds ih =>
    obtain ⟨a, s⟩ := d
    rw [List.map_cons, declaration, List.lookup_cons, List.lookup_cons, ih]
    have names : (ρ.anchor name == ρ.anchor a) = (name == a) := by
      rw [Bool.eq_iff_iff]
      simp
    rw [names]
    cases name == a <;> rfl

/-! ## Expansion -/

theorem suppliedEntries_layered (xs : List (Rose Layered)) :
    suppliedEntries (xs.map (Rose.map ρ.layered)) = (suppliedEntries xs).map ρ.layered := by
  have supplied : ∀ entries : Forest Layered,
      (xs.map (Rose.map ρ.layered)).foldl (fun entries r =>
          if r.label.shape = .object then entries.addMissing (·.key) r.children else entries)
        (entries.map ρ.layered) =
      (xs.foldl (fun entries r =>
          if r.label.shape = .object then entries.addMissing (·.key) r.children else entries)
        entries).map ρ.layered := by
    induction xs with
    | nil => exact fun _ => rfl
    | cons x xs ih =>
      intro entries
      have object : (x.map ρ.layered).label.shape = .object ↔ x.label.shape = .object :=
        ρ.shape_eq_object_iff
      rw [List.map_cons, List.foldl_cons, List.foldl_cons, ← ih]
      congr 1
      simp only [object]
      split
      · exact Forest.addMissing_map (g := ρ.layered) ρ.key_layered_iff entries x.children
      · rfl
  exact supplied .nil

theorem expanded_layered (l : Layered) (xs : List (Rose Layered)) (children : Forest Layered) :
    (ρ.layered l).expanded (xs.map (Rose.map ρ.layered)) (children.map ρ.layered) =
      (l.expanded xs children).map ρ.layered := by
  have entries : (suppliedEntries (xs.map (Rose.map ρ.layered))).putAll (·.key)
      (children.map ρ.layered) = ((suppliedEntries xs).putAll (·.key) children).map ρ.layered := by
    rw [suppliedEntries_layered]
    exact Forest.putAll_map (g := ρ.layered) ρ.key_layered_iff _ children
  have plain : (ρ.layered l).plain = ρ.layered l.plain := rfl
  have shaped : (ρ.layered l).shape = ρ.shape l.shape := rfl
  unfold Layered.expanded
  rw [entries, plain, shaped]
  cases l.shape with
  | scalar history => cases xs <;> rfl
  | array => cases children <;> cases xs <;> rfl
  | object =>
    cases children with
    | nil =>
      rcases xs with - | ⟨x, - | ⟨y, xs⟩⟩ <;> rfl
    | cons a cs ss => rfl

section Pass

variable {ρ} {g g' : Place → String → Except CompileError (Rose Layered)}
  (hg : ∀ p name r, g p name = .ok r → g' (ρ.place p) (ρ.anchor name) = .ok (r.map ρ.layered))

include hg

theorem expanded_forest {parent : Shape} {p : Place} {position : Nat} {f f' : Forest Layered}
    (h : f.expanded g parent p position = .ok f') :
    (f.map ρ.layered).expanded g' (ρ.shape parent) (ρ.place p) position =
      .ok (f'.map ρ.layered) := by
  induction f generalizing parent p position f' with
  | nil =>
    rw [← Outcome.pure_eq_ok.1 h]
    rfl
  | cons l cs ss ihc ihs =>
    obtain ⟨r, rest, hr, hs, rfl⟩ := Forest.expanded_cons_eq_ok.1 h
    obtain ⟨xs, children, hxs, hc, rfl⟩ := Rose.expanded_eq_ok.1 hr
    refine Forest.expanded_cons_eq_ok.2 ⟨_, _, Rose.expanded_eq_ok.2
      ⟨_, _, ?_, ?_, ρ.expanded_layered l xs children⟩, ihs hs, rfl⟩
    · rw [step_layered, place_concat]
      exact Outcome.mapM_map_eq_ok (hg _) hxs
    · rw [step_layered, place_concat]
      exact ihc hc

theorem expanded_rose {p : Place} {r r' : Rose Layered} (h : r.expanded g p = .ok r') :
    (r.map ρ.layered).expanded g' (ρ.place p) = .ok (r'.map ρ.layered) := by
  obtain ⟨xs, children, hxs, hc, rfl⟩ := Rose.expanded_eq_ok.1 h
  exact Rose.expanded_eq_ok.2 ⟨_, _, Outcome.mapM_map_eq_ok (hg _) hxs, expanded_forest hg hc,
    ρ.expanded_layered _ xs children⟩

end Pass

/-- A document that is expanded, under a relabelling. -/
def expanding (ρ : Relabelling) (e : Expanding) : Expanding where
  environment := e.environment
  document := e.document.map ρ.layered
  anchors := e.anchors.map ρ.declaration

variable {e : Expanding}

theorem content?_expanding (name : String) :
    (ρ.expanding e).content? (ρ.anchor name) = (e.content? name).map (Rose.map ρ.layered) := by
  unfold Expanding.content?
  rw [expanding, lookup_declarations]
  cases e.anchors.lookup name with
  | none => rfl
  | some s =>
    cases s with
    | place p => exact ρ.at?_layered e.document p
    | content r => rfl

theorem expandAlias_expanding {available : List String} {p : Place} {name : String}
    {r : Rose Layered} (h : e.expandAlias available p name = .ok r) :
    (ρ.expanding e).expandAlias (available.map ρ.anchor) (ρ.place p) (ρ.anchor name) =
      .ok (r.map ρ.layered) := by
  obtain ⟨content, found, here, hr⟩ := Expanding.expandAlias_eq_ok.1 h
  refine Expanding.expandAlias_eq_ok.2
    ⟨content.map ρ.layered, ?_, List.mem_map_of_mem here, ?_⟩
  · rw [content?_expanding, found, Option.map_some]
  · rw [← List.map_erase ρ.anchor.injective]
    exact expanded_rose (fun p name r hr => expandAlias_expanding hr) hr
termination_by available.length
decreasing_by exact length_erase_lt here

theorem names_expanding (e : Expanding) : (ρ.expanding e).names = e.names.map ρ.anchor := by
  unfold Expanding.names
  rw [← eraseDups_map ρ.anchor.injective, expanding, List.map_map, List.map_map]
  rfl

/-- Where the aliases of a document can be expanded, those of the relabelled document can be, and
the result is the relabelled one. -/
theorem expanded_expanding {r : Rose Layered} (h : e.expanded = .ok r) :
    (ρ.expanding e).expanded = .ok (r.map ρ.layered) := by
  unfold Expanding.expanded
  rw [names_expanding]
  exact expanded_rose (fun p name r hr => ρ.expandAlias_expanding hr) h

theorem expanding_ofConfiguration (c : Configuration) (environment : String)
    (document : Rose Layered) :
    Expanding.ofConfiguration (ρ.configuration c) environment (document.map ρ.layered) =
      ρ.expanding (.ofConfiguration c environment document) := by
  unfold Expanding.ofConfiguration expanding configuration
  simp only [anchorPlaces_rose, anchorContents_tree, List.map_append]

/-! ## Lineages -/

/-- The environments keep their names, and the names that they inherit from. -/
structure KeepsLineages (ρ : Relabelling) (c : Configuration) : Prop where
  names : ∀ e ∈ c.environments.top.children.rootLabels, ρ.key e.data.key = e.data.key
  inherits : ∀ r ∈ c.environments.top.children.roots, ∀ e ∈ r.children.rootLabels,
    e.data.key = inheritsKey → e.data.value.map ρ.scalar = e.data.value

variable {ρ} {c : Configuration}

theorem child?_inherits (t : Tree) (h : Handle) :
    (ρ.tree t).child? h inheritsKey = t.child? h inheritsKey := by
  have below : (ρ.tree t).below h = (t.below h).map ρ.entry := by
    unfold Tree.below
    rw [find?_tree]
    cases t.find? h <;> rfl
  unfold Tree.child?
  rw [below, Forest.findRoot?_map (p := (·.data.key == inheritsKey)), Option.map_map]
  · rfl
  · intro e
    have := ρ.key_eq_inherits_iff (k := e.data.key)
    rw [Bool.eq_iff_iff]
    simp [entry, data, this]

theorem KeepsLineages.inheritsOf (keeps : ρ.KeepsLineages c) (sound : c.environments.Sound)
    {h : Handle} (hh : h ∈ c.environments.top.children.rootLabels.map (·.handle)) :
    (ρ.configuration c).inheritsOf h = c.inheritsOf h := by
  unfold Configuration.inheritsOf
  rw [configuration, child?_inherits]
  cases found : c.environments.child? h inheritsKey with
  | none => rfl
  | some x =>
    obtain ⟨n, hn, e, he, rfl, key⟩ := Tree.exists_of_child? found
    rw [Forest.rootLabels_eq_map_roots, List.map_map] at hh
    obtain ⟨r, hr, rfl⟩ := List.mem_map.1 hh
    have inside : r ∈ c.environments.forest.subtrees := List.mem_cons_of_mem _
      (List.mem_append_left _ (Forest.mem_subtrees_of_mem_roots hr (Or.inl rfl)))
    have same : n = r := Option.some.inj (hn.symm.trans (sound.find?_of_mem inside))
    rw [same] at he
    have data := sound.data?_of_child inside he
    rw [Option.bind_some, Option.bind_some, data?_tree, data, Option.map_some]
    dsimp only [Relabelling.data]
    rw [keeps.inherits r hr e he key]

theorem KeepsLineages.lineage (keeps : ρ.KeepsLineages c) (sound : c.environments.Sound)
    (environment : String) : (ρ.configuration c).lineage environment = c.lineage environment := by
  refine Configuration.lineage_congr ?_ (fun _ => keeps.inheritsOf sound) environment
  have top : (ρ.configuration c).environments.top.children =
      c.environments.top.children.map ρ.entry := rfl
  unfold Configuration.named
  rw [top, Forest.rootLabels_map, List.map_map]
  exact List.map_congr_left fun e he => congrArg (·, e.handle) (keeps.names e he)

end Relabelling

end LayeredConfig
