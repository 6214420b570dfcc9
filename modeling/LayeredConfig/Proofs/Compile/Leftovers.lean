import LayeredConfig.Proofs.Compile.Canonical
import LayeredConfig.Proofs.Compile.Inheriting
import LayeredConfig.Proofs.Compile.ReferencesLeft

/-!
# What is left in a compiled tree

Each environment on the way loses its `inherits` before the layers are merged. What else brings an
`inherits` to the root is left there: an entry of the default tree, and an alias of the root, whichever
layer names it, whose anchor has one or is brought one (`Expanding.Brings`).

Main statement: `Configuration.nothing_left_iff`, together with the references that are left.
-/

namespace LayeredConfig

/-- An object with an entry of a key. -/
def Rose.HasEntry (k : String) (r : Rose Layered) : Prop :=
  r.label.shape = .object ∧ k ∈ r.children.rootKeys Layered.key

/-- Those of a node's aliases that count: all at an object, and the first at a scalar or at an array
without items. -/
def Shape.counted {α : Type} (empty : Bool) (aliases : List α) : Shape → List α
  | .object => aliases
  | .array => if empty then aliases.take 1 else []
  | .scalar _ => aliases.take 1

/-- The names of the aliases that count at a node. -/
def Rose.countedAliases (r : Rose Layered) : List String :=
  r.label.shape.counted r.children.isEmpty r.label.aliases

/-! ## Entries of expanded nodes -/

section Pass

variable {k : String} {g : Place → String → Except CompileError (Rose Layered)} {place : Place}

theorem mem_rootKeys_suppliedEntries {xs : List (Rose Layered)} :
    k ∈ (suppliedEntries xs).rootKeys Layered.key ↔ ∃ x ∈ xs, x.HasEntry k := by
  rw [suppliedEntries_eq, Forest.mem_rootKeys_addMissing, Forest.mem_rootKeys (f := .ofRoots _),
    Forest.roots_ofRoots]
  simp only [Forest.rootKeys_nil, List.not_mem_nil, false_or, List.mem_flatMap, List.mem_filter,
    decide_eq_true_eq, Rose.HasEntry, Forest.mem_rootKeys]
  constructor
  · rintro ⟨r, ⟨x, ⟨hx, object⟩, hr⟩, key⟩
    exact ⟨x, hx, object, r, hr, key⟩
  · rintro ⟨x, hx, object, r, hr, key⟩
    exact ⟨r, ⟨x, ⟨hx, object⟩, hr⟩, key⟩

/-- An expanded node has its own entries and those of the aliases that count. -/
theorem Layered.hasEntry_expanded (l : Layered) (xs : List (Rose Layered)) (cs : Forest Layered) :
    (l.expanded xs cs).HasEntry k ↔
      (⟨l, cs⟩ : Rose Layered).HasEntry k ∨ ∃ x ∈ l.shape.counted cs.isEmpty xs, x.HasEntry k := by
  cases shape : l.shape with
  | scalar history =>
    cases xs <;> simp [expanded, shape, Rose.HasEntry, Shape.counted, plain, Rose.withKey]
  | array =>
    cases cs <;> cases xs <;>
      simp [expanded, shape, Rose.HasEntry, Shape.counted, plain, Rose.withKey, Forest.isEmpty]
  | object =>
    have entries : (⟨l.plain, (suppliedEntries xs).putAll Layered.key cs⟩ : Rose Layered).HasEntry k ↔
        (⟨l, cs⟩ : Rose Layered).HasEntry k ∨ ∃ x ∈ xs, x.HasEntry k := by
      rw [Rose.HasEntry, Forest.mem_rootKeys_putAll, mem_rootKeys_suppliedEntries, or_comm]
      simp [plain, shape, Rose.HasEntry]
    cases cs with
    | nil =>
      rcases xs with - | ⟨x, - | ⟨y, more⟩⟩
      · simp only [expanded, shape]
        exact entries
      · simp [expanded, shape, Rose.HasEntry, Shape.counted, Rose.withKey]
      · simp only [expanded, shape]
        exact entries
    | cons a cs ss =>
      simp only [expanded, shape]
      exact entries

theorem Forest.isEmpty_expanded {parent : Shape} {position : Nat} {f f' : Forest Layered}
    (h : f.expanded g parent place position = .ok f') : f'.isEmpty = f.isEmpty := by
  cases f with
  | nil =>
    cases Outcome.pure_eq_ok.1 h
    rfl
  | cons l cs ss =>
    obtain ⟨r, rest, -, -, rfl⟩ := expanded_cons_eq_ok.1 h
    rfl

theorem Shape.mem_counted {shape : Shape} {empty : Bool} {names : List String} {xs : List (Rose Layered)}
    (h : names.mapM (g place) = .ok xs) {x : Rose Layered} :
    x ∈ shape.counted empty xs ↔ ∃ name ∈ shape.counted empty names, g place name = .ok x := by
  have first := Outcome.mapM_take h 1
  cases shape with
  | object => exact Outcome.mem_iff_of_mapM_eq_ok h
  | scalar history => exact Outcome.mem_iff_of_mapM_eq_ok first
  | array =>
    cases empty with
    | true => exact Outcome.mem_iff_of_mapM_eq_ok first
    | false => simp [counted]

theorem Rose.mem_aliases_of_counted {r : Rose Layered} {name : String} (h : name ∈ r.countedAliases) :
    name ∈ r.label.aliases := by
  unfold countedAliases Shape.counted at h
  split at h
  · exact h
  · split at h
    · exact List.mem_of_mem_take h
    · cases h
  · exact List.mem_of_mem_take h

/-- The aliases that count are those through which a node gets an entry that it lacks. -/
theorem Rose.hasEntry_expanded {r r' : Rose Layered} (h : r.expanded g place = .ok r') :
    r'.HasEntry k ↔
      r.HasEntry k ∨ ∃ name ∈ r.countedAliases, ∃ x, g place name = .ok x ∧ x.HasEntry k := by
  obtain ⟨xs, children, hxs, hchildren, rfl⟩ := expanded_eq_ok.1 h
  rw [Layered.hasEntry_expanded, Forest.isEmpty_expanded hchildren]
  refine or_congr ?_ ?_
  · rw [HasEntry, HasEntry, Forest.rootKeys_expanded hchildren]
  · simp only [Shape.mem_counted hxs, countedAliases]
    constructor
    · rintro ⟨x, ⟨name, hname, hx⟩, entry⟩
      exact ⟨name, hname, x, hx, entry⟩
    · rintro ⟨name, hname, x, hx, entry⟩
      exact ⟨x, ⟨name, hname, hx⟩, entry⟩

end Pass

/-! ## Entries brought by aliases -/

namespace Expanding

variable {e : Expanding} {k : String}

/-- A node has an entry of a key, or an alias that counts there stands for a node that is brought one. -/
inductive Brings (e : Expanding) (k : String) : Rose Layered → Prop
  | entry {r : Rose Layered} : r.HasEntry k → Brings e k r
  | alias {r content : Rose Layered} {name : String} : name ∈ r.countedAliases →
    e.content? name = some content → Brings e k content → Brings e k r

theorem brings_iff {r : Rose Layered} :
    e.Brings k r ↔ r.HasEntry k ∨ ∃ name ∈ r.countedAliases, ∃ content,
      e.content? name = some content ∧ e.Brings k content := by
  constructor
  · rintro (entry | ⟨hname, found, brings⟩)
    · exact Or.inl entry
    · exact Or.inr ⟨_, hname, _, found, brings⟩
  · rintro (entry | ⟨name, hname, content, found, brings⟩)
    · exact .entry entry
    · exact .alias hname found brings

/-- An expanded node has an entry of a key iff the node is brought one. -/
theorem hasEntry_expanded {available : List String} {place : Place} {r r' : Rose Layered}
    (h : r.expanded (e.expandAlias available) place = .ok r') : r'.HasEntry k ↔ e.Brings k r := by
  rw [Rose.hasEntry_expanded h, brings_iff]
  refine or_congr_right (exists_congr fun name => and_congr_right fun hname => ?_)
  obtain ⟨xs, -, hxs, -, -⟩ := Rose.expanded_eq_ok.1 h
  obtain ⟨x, hx⟩ := Outcome.exists_of_mapM_eq_ok hxs (Rose.mem_aliases_of_counted hname)
  obtain ⟨content, found, here, inner⟩ := expandAlias_eq_ok.1 hx
  simp only [hx, found, Except.ok.injEq, Option.some.injEq, exists_eq_left']
  exact hasEntry_expanded inner
termination_by available.length
decreasing_by exact length_erase_lt here

end Expanding

/-! ## Entries of merged documents -/

theorem Rose.hasEntry_overlay {l u : Rose Layered} {k : String} :
    (l.overlay u).HasEntry k ↔ u.label.shape = .object ∧ (l.HasEntry k ∨ u.HasEntry k) := by
  rw [HasEntry, shape_overlay_eq_object]
  refine and_congr_right fun upper => ?_
  rw [overlay, HasEntry, HasEntry]
  by_cases lower : l.label.shape = .object
  · rw [if_pos ⟨lower, upper⟩, Forest.mem_rootKeys_overlay]
    simp [lower, upper]
  · rw [if_neg fun both => lower both.1]
    simp [lower, upper]

theorem Rose.hasEntry_layered {d : Draft} {k : String} :
    d.layered.HasEntry k ↔ d.label.type = .object ∧ k ∈ d.children.rootKeys NodeData.key := by
  by_cases object : d.label.type = .object
  · rw [layered_of_object object, HasEntry, Forest.rootKeys_layered, Layered.shape_ofData object]
    simp [object]
  · refine iff_of_false (fun entry => object ?_) fun entry => object entry.1
    have shape := entry.1
    unfold layered Layered.ofData at shape
    cases type : d.label.type <;> simp [type] at shape ⊢

theorem Rose.not_hasEntry_without (k : String) (r : Rose Layered) : ¬(r.without k).HasEntry k := by
  rintro ⟨object, entry⟩
  rw [label_without] at object
  rw [children_without, if_pos object] at entry
  obtain ⟨x, hx, same⟩ := Forest.mem_rootKeys.1 entry
  rw [Forest.roots_filterRoots, List.mem_filter] at hx
  simp [same] at hx

namespace Configuration

variable {c : Configuration} {m : Markers} {environment : String} {tree : Tree}

theorem not_hasEntry_layer (h : Handle) : ¬(c.layer h).HasEntry inheritsKey := by
  unfold layer
  split
  · exact Rose.not_hasEntry_without _ _
  · rintro ⟨object, -⟩
    cases object

/-- Objects put over the default tree leave its `inherits`, and bring none. -/
theorem hasEntry_merged {lineage : List Handle} :
    (c.merged lineage).HasEntry inheritsKey ↔
      (c.default.top.label.data.type = .object ∧ inheritsKey ∈ c.default.topKeys) ∧
        ∀ h ∈ lineage, (c.layer h).label.shape = .object := by
  induction lineage using List.reverseRecOn with
  | nil =>
    have default := Rose.hasEntry_layered (d := c.default.top.map (·.data)) (k := inheritsKey)
    rw [Rose.rootKeys_map_data] at default
    rw [and_iff_left (List.forall_mem_nil _)]
    exact default
  | append_singleton lineage h ih =>
    rw [merged_concat, Rose.hasEntry_overlay, ih, or_iff_left (not_hasEntry_layer h), List.forall_mem_append,
      List.forall_mem_singleton, and_comm, and_assoc]

/-- The keys at the root of a compiled tree are those of the expanded document. -/
theorem mem_topKeys_ofDrafts {k : String} (value : Slot → Option Scalar) (document : Rose Layered) :
    k ∈ (Tree.ofDrafts .detached
        (if document.label.shape = .object then (document.valued value).children else .nil)).topKeys ↔
      document.HasEntry k := by
  rw [Tree.topKeys, ← Rose.rootKeys_map_data, Tree.map_data_ofDrafts]
  split
  · rename_i object
    rw [Rose.valued, Forest.rootKeys_eq_map_rootLabels, Forest.map_key_valued]
    exact (and_iff_right object).symm
  · rename_i other
    exact iff_of_false List.not_mem_nil fun entry => other entry.1

/-- **What is left in a compiled tree.** Let an environment compile with any markers. A reference is left in
a string of the result iff one arises in a text, where its pieces meet or in the name of the environment,
and references lead there from a text that the result has. A property `inherits` is left at the root iff the
default tree has one there and all environments on the way are objects, or an alias of the root brings one. -/
theorem nothing_left_iff (compiled : c.compile m environment = .ok tree) :
    ∃ lineage document value,
      let e := Expanding.ofConfiguration c environment (c.merged lineage)
      let s : Substituting := ⟨environment, m, document⟩
      c.lineage environment = .ok lineage ∧ e.expanded = .ok document ∧ s.Reading value ∧
        ((∀ entry ∈ tree.entries, m.Plain entry.data.value) ↔
          ∀ t, s.Shown t → ∀ u, Relation.ReflTransGen s.Refers t u → ¬s.Arises value u) ∧
        (inheritsKey ∉ tree.topKeys ↔
          ¬((c.default.top.label.data.type = .object ∧ inheritsKey ∈ c.default.topKeys) ∧
            ∀ h ∈ lineage, (c.layer h).label.shape = .object) ∧
          ∀ name ∈ (c.merged lineage).countedAliases, ∀ content, e.content? name = some content →
            ¬e.Brings inheritsKey content) := by
  obtain ⟨lineage, document, draft, value, hl, expanded, resolved, reading, rfl⟩ :=
    exists_resolved_of_compile compiled
  refine ⟨lineage, document, value, hl, expanded, reading, ?_, ?_⟩
  · rw [Tree.forall_data_ofDrafts (P := fun d => m.Plain d.value), and_iff_right nofun]
    exact Substituting.forall_plain_iff resolved reading
  · rw [mem_topKeys_ofDrafts, Expanding.hasEntry_expanded expanded, Expanding.brings_iff, not_or]
    refine and_congr (not_congr hasEntry_merged) ?_
    push Not
    rfl

/-- `prod` inherits from `base`, which refers to the value below its own, and takes more properties through
an alias. -/
def tidyReferences : Configuration where
  default := .ofDrafts .default <|
    .cons (.ofScalar "host" (.string "local")) .nil <|
    .cons { key := "common", anchor := "common" } (.cons (.ofScalar "port" (.number (.int 80))) .nil .nil) <|
    .cons (.ofScalar "url" (.string "$\x7bhost\x7d:$\x7bport\x7d/$\x7benv\x7d")) .nil .nil
  environments := .ofDrafts .environments <|
    .cons { key := "base" } (.cons (.ofScalar "host" (.string "base.$\x7bhost\x7d")) .nil .nil) <|
    .cons { key := "prod", aliases := ["common"] }
      (.cons (.ofScalar "inherits" (.string "base")) .nil .nil) .nil

theorem nothing_left_iff_tidyReferences : ∃ tree lineage document value,
    let e := Expanding.ofConfiguration tidyReferences "prod" (tidyReferences.merged lineage)
    let s : Substituting := ⟨"prod", .standard, document⟩
    tidyReferences.compile .standard "prod" = .ok tree ∧ e.expanded = .ok document ∧ s.Reading value ∧
      (∀ entry ∈ tree.entries, Markers.standard.Plain entry.data.value) ∧ inheritsKey ∉ tree.topKeys ∧
      (∀ t, s.Shown t → ∀ u, Relation.ReflTransGen s.Refers t u → ¬s.Arises value u) ∧
      ∀ name ∈ (tidyReferences.merged lineage).countedAliases, ∀ content, e.content? name = some content →
        ¬e.Brings inheritsKey content := by
  have clean : ∃ tree ∈ (tidyReferences.compile .standard "prod").toOption,
      (∀ entry ∈ tree.entries, Markers.standard.Plain entry.data.value) ∧ inheritsKey ∉ tree.topKeys := by
    decide +kernel
  obtain ⟨tree, compiled, plain, gone⟩ := clean
  obtain ⟨lineage, document, value, -, expanded, reading, references, inherits⟩ :=
    nothing_left_iff (Outcome.toOption_eq_some.1 compiled)
  exact ⟨tree, lineage, document, value, Outcome.toOption_eq_some.1 compiled, expanded, reading, plain, gone,
    references.1 plain, (inherits.1 gone).2⟩

/-- The default tree has an `inherits`, and a value that ends in a dollar sign is put before a brace. -/
def leaving : Configuration where
  default := .ofDrafts .default <|
    .cons (.ofScalar "inherits" (.string "base")) .nil <|
    .cons (.ofScalar "a" (.string "$")) .nil <|
    .cons (.ofScalar "x" (.number (.int 1))) .nil <|
    .cons (.ofScalar "b" (.string "$\x7ba\x7d\x7bx\x7d")) .nil .nil
  environments := .ofDrafts .environments (.cons { key := "prod" } .nil .nil)

/-- Both are left: `$` put before `{x}` makes a reference to a value that there is, and nothing takes the
`inherits` of the default tree away. -/
theorem reference_and_inherits_left : ∃ tree, leaving.compile .standard "prod" = .ok tree ∧
    (∃ entry ∈ tree.entries, entry.data.value = some (.string "$\x7bx\x7d") ∧
      Markers.standard.references "$\x7bx\x7d" = ["x"]) ∧ inheritsKey ∈ tree.topKeys := by
  have compiled : ∃ tree ∈ (leaving.compile .standard "prod").toOption,
      (∃ entry ∈ tree.entries, entry.data.value = some (.string "$\x7bx\x7d") ∧
        Markers.standard.references "$\x7bx\x7d" = ["x"]) ∧ inheritsKey ∈ tree.topKeys := by
    decide +kernel
  obtain ⟨tree, compiled, left⟩ := compiled
  exact ⟨tree, Outcome.toOption_eq_some.1 compiled, left⟩

end Configuration

end LayeredConfig
