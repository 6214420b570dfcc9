import LayeredConfig.Proofs.Compile.CompiledTree
import LayeredConfig.Proofs.Compile.OwnNodes

/-!
# Overrides given through an alias

Layers are merged with their aliases as markers, and the aliases are expanded after the last layer;
there an entry of the object's own, whichever layer gave it, goes before one that an alias supplies.
So what an environment gives an object through an alias counts iff no layer gives the object an
entry of that key (`alias_override_exact`); an entry of the default tree goes before it
(`default_before_alias`).

* `sole?_overlay` : a node of the upper layer is in the merged document as it is, or put over a lower
  node;
* `child?_of_expanded_aliases` : under a key that an object lacks, it gets what the first of its
  aliases that has the key supplies.
-/

namespace LayeredConfig

/-! ## A node of the upper layer -/

namespace Rose

variable {l u uc nc n o : Rose Layered}

theorem shape_overlay_of_ne_scalar (h : ∀ history, u.label.shape ≠ .scalar history) :
    (l.overlay u).label.shape = u.label.shape := by
  rw [overlay, shape_under]
  split
  · exact absurd ‹_› (h _)
  · rfl

/-- The only child that a step leads to in the upper node is the child of the merged node, or is
put over a lower one there. -/
theorem childrenAt_overlay {step : Step} (hu : u.childrenAt step = [uc])
    (hn : (l.overlay u).childrenAt step = [nc]) : nc = uc ∨ ∃ lc : Rose Layered, nc = lc.overlay uc := by
  have first : (l.overlay u).child? step = some nc := by rw [child?_eq_head?, hn]; rfl
  unfold childrenAt at hu
  split at hu
  · rename_i name shape
    have merged : (l.overlay u).label.shape = .object :=
      (shape_overlay_of_ne_scalar (by simp [shape])).trans shape
    rw [child?_of_object merged] at first
    by_cases object : l.label.shape = .object
    · rw [overlay, if_pos ⟨object, shape⟩, Forest.findRoot?_overlay hu] at first
      cases found : l.children.findRoot? (Layered.key · == name) with
      | none =>
        rw [found] at first
        exact Or.inl (Option.some.inj first).symm
      | some lc =>
        rw [found] at first
        exact Or.inr ⟨lc, (Option.some.inj first).symm⟩
    · rw [overlay, if_neg fun h => object h.1, Forest.findRoot?_eq_find?, ← List.head?_filter,
        hu] at first
      exact Or.inl (Option.some.inj first).symm
  · rename_i position shape
    have merged : (l.overlay u).label.shape = .array :=
      (shape_overlay_of_ne_scalar (by simp [shape])).trans shape
    rw [child?_of_array merged, overlay, if_neg (by simp [shape]),
      Option.toList_eq_singleton_iff.1 hu] at first
    exact Or.inl (Option.some.inj first).symm
  · cases hu

/-- A node of the upper layer is in the merged document as it is, or put over a lower node. -/
theorem sole?_overlay {place : Place} (ho : u.sole? place = some o)
    (hn : (l.overlay u).sole? place = some n) : n = o ∨ ∃ lower : Rose Layered, n = lower.overlay o := by
  induction place generalizing l u with
  | nil =>
    cases ho
    cases hn
    exact Or.inr ⟨l, rfl⟩
  | cons step place ih =>
    obtain ⟨uc, huc, ho⟩ := sole?_cons.1 ho
    obtain ⟨nc, hnc, hn⟩ := sole?_cons.1 hn
    rcases childrenAt_overlay huc hnc with rfl | ⟨lc, rfl⟩
    · exact Or.inl (Option.some.inj (hn.symm.trans ho))
    · exact ih ho hn

/-- An object that names aliases has them, whatever it is put over. -/
theorem aliases_overlay (h : u.label.shape = .object) (named : u.label.aliases ≠ []) :
    (l.overlay u).label.aliases = u.label.aliases := by
  rw [overlay, Layered.under]
  cases hl : l.label.shape <;> simp [h, named]

end Rose

/-! ## What aliases supply -/

section Pass

variable {g : Place → String → Except CompileError (Rose Layered)} {place : Place}

/-- Under a key that an object lacks, it gets what the first of its aliases that has the key
supplies. -/
theorem Rose.child?_of_expanded_aliases {r r' : Rose Layered} {k : String}
    (h : r.expanded g place = .ok r') (shape : r.label.shape = .object)
    (missing : r.childrenAt (.key k) = []) :
    ∃ xs, r.label.aliases.mapM (g place) = .ok xs ∧
      r'.child? (.key k) = xs.findSome? (·.child? (.key k)) := by
  obtain ⟨xs, children, hxs, hchildren, rfl⟩ := expanded_eq_ok.1 h
  refine ⟨xs, hxs, ?_⟩
  have absent : k ∉ children.rootKeys Layered.key := by
    rw [Forest.rootKeys_expanded hchildren, ← Forest.findRoot?_eq_none_iff, ← child?_of_object shape,
      child?_eq_head?, missing]
    rfl
  have entries : (⟨r.label.plain, (suppliedEntries xs).putAll Layered.key children⟩ :
      Rose Layered).child? (.key k) = xs.findSome? (·.child? (.key k)) := by
    have none : children.roots.reverse.find? (·.label.key == k) = none := by
      rw [List.find?_eq_none]
      intro x hx found
      exact absent (Forest.mem_rootKeys.2 ⟨x, List.mem_reverse.1 hx, beq_iff_eq.1 found⟩)
    rw [child?_of_object (r := ⟨r.label.plain, _⟩) shape, Forest.findRoot?_putAll, none,
      Option.none_or, findRoot?_suppliedEntries]
  cases children with
  | nil =>
    rcases xs with - | ⟨x, - | ⟨y, more⟩⟩
    · simp only [Layered.expanded, shape]
      exact entries
    · simp only [Layered.expanded, shape, List.findSome?_cons, List.findSome?_nil]
      change x.child? (.key k) = _
      cases x.child? (.key k) <;> rfl
    · simp only [Layered.expanded, shape]
      exact entries
  | cons a cs ss =>
    rw [Layered.expanded_of_object shape (by simp)]
    exact entries

/-- An entry of an object's own under a key: one, a scalar without aliases that has these
values. -/
def Rose.ScalarAt (r : Rose Layered) (k : String) (history : List (Option Scalar)) : Prop :=
  ∃ entry, r.childrenAt (.key k) = [entry] ∧ entry.label.aliases = [] ∧
    entry.label.shape = .scalar history

/-- A scalar entry of an object's own is there once the object is expanded. -/
theorem Rose.ScalarAt.expanded {r r' : Rose Layered} {k : String} {history : List (Option Scalar)}
    (hr : r.ScalarAt k history) (h : r.expanded g place = .ok r') :
    ∃ n, r'.child? (.key k) = some n ∧ n.label.shape = .scalar history := by
  obtain ⟨entry, hentry, plain, shape⟩ := hr
  obtain ⟨-, n, hn, found⟩ := child?_of_expanded h hentry
  exact ⟨n, found, shape_expanded_of_plain hn plain shape⟩

end Pass

namespace Expanding

/-- What an alias of this name stands for has an entry with this key. -/
def Supplies (e : Expanding) (name k : String) : Prop :=
  ∃ place x, e.expandAlias e.names place name = .ok x ∧ (x.child? (.key k)).isSome

/-- An object that lacks a key gets there the scalar that the content of an alias has, if no alias
before supplies the key. -/
theorem scalar_of_alias {e : Expanding} {place : Place} {r r' content : Rose Layered}
    {before after : List String} {name k : String} {history : List (Option Scalar)}
    (h : r.expanded (e.expandAlias e.names) place = .ok r') (shape : r.label.shape = .object)
    (missing : r.childrenAt (.key k) = []) (named : r.label.aliases = before ++ name :: after)
    (hcontent : e.content? name = some content) (entry : content.ScalarAt k history)
    (first : ∀ b ∈ before, ¬ e.Supplies b k) :
    ∃ n, r'.child? (.key k) = some n ∧ n.label.shape = .scalar history := by
  obtain ⟨xs, hxs, found⟩ := Rose.child?_of_expanded_aliases h shape missing
  rw [named, Outcome.mapM_eq_ok, List.map_append, List.map_cons] at hxs
  obtain ⟨ys, zs, rfl, hys, hzs⟩ := List.map_eq_append_iff.1 hxs.symm
  obtain ⟨x, zs, rfl, hx, -⟩ := List.map_eq_cons_iff.1 hzs
  obtain ⟨content', hcontent', -, hx⟩ := expandAlias_eq_ok.1 hx.symm
  cases hcontent.symm.trans hcontent'
  obtain ⟨n, hn, hshape⟩ := entry.expanded hx
  have skipped : ys.findSome? (·.child? (.key k)) = none := by
    rw [List.findSome?_eq_none_iff]
    intro y hy
    obtain ⟨b, hb, hby⟩ := List.mem_map.1 (hys ▸ List.mem_map_of_mem hy)
    exact Option.not_isSome_iff_eq_none.1 fun some => first b hb ⟨place, y, hby, some⟩
  refine ⟨n, ?_, hshape⟩
  rw [found, List.findSome?_append, skipped, Option.none_or, List.findSome?_cons, hn]

end Expanding

namespace Configuration

variable {c : Configuration} {m : Markers} {environment name k : String} {lower : List Handle}
  {h : Handle} {keys before after : List String} {o n content : Rose Layered}
  {history : List (Option Scalar)} {tree : Tree}

/-- **Overrides given through an alias.** Let an environment compile, and let its own layer have an
object at a way through objects with an alias whose content has a scalar without references under a
key, which no alias before supplies. If no layer gives the object an entry of that key, the compiled
value there is that scalar. If layers do, theirs goes before it. -/
theorem alias_override_exact (hl : c.lineage environment = .ok (lower ++ [h]))
    (hc : c.compile m environment = .ok tree)
    (ho : (c.layer h).sole? (keys.map .key) = some o) (object : o.label.shape = .object)
    (named : o.label.aliases = before ++ name :: after)
    (hn : (c.merged (lower ++ [h])).sole? (keys.map .key) = some n)
    (hcontent : (Expanding.ofConfiguration c environment (c.merged (lower ++ [h]))).content? name =
      some content)
    (entry : content.ScalarAt k history) (plain : m.Plain history.getLast?.join)
    (first : ∀ b ∈ before,
      ¬ (Expanding.ofConfiguration c environment (c.merged (lower ++ [h]))).Supplies b k) :
    (n.childrenAt (.key k) = [] →
      tree.valueAt? ((keys ++ [k]).map .key) = history.getLast?.join) ∧
    ∀ values, n.ScalarAt k values → m.Plain values.getLast?.join →
      tree.valueAt? ((keys ++ [k]).map .key) = values.getLast?.join := by
  obtain ⟨lineage, document, -, hl', hd, -, -⟩ := exists_reading_of_compile hc
  cases hl.symm.trans hl'
  obtain ⟨shape, aliases⟩ : n.label.shape = .object ∧ n.label.aliases = o.label.aliases := by
    rw [merged_concat] at hn
    rcases Rose.sole?_overlay ho hn with rfl | ⟨l, rfl⟩
    · exact ⟨object, rfl⟩
    · exact ⟨(Rose.shape_overlay_of_ne_scalar (by simp [object])).trans object,
        Rose.aliases_overlay object (by simp [named])⟩
  obtain ⟨r, hr, found⟩ := Rose.at?_of_expanded hd hn
  -- whatever the object has under the key once expanded, the document has it at the way
  have value : ∀ {values : List (Option Scalar)}, m.Plain values.getLast?.join →
      (∃ x, r.child? (.key k) = some x ∧ x.label.shape = .scalar values) →
      tree.valueAt? ((keys ++ [k]).map .key) = values.getLast?.join := by
    rintro values plain ⟨x, hx, xshape⟩
    have there : document.at? ((keys ++ [k]).map .key) = some x := by
      rw [List.map_append, Rose.at?_append, found, Option.bind_some, List.map_singleton,
        Rose.at?_cons, hx]
      rfl
    have root : document.label.shape = .object := by
      cases keys with
      | nil =>
        cases found
        exact Rose.shape_of_child?_key hx
      | cons key keys =>
        obtain ⟨child, hchild, -⟩ := Option.bind_eq_some_iff.1 there
        exact Rose.shape_of_child?_key hchild
    exact valueAt?_of_plain hl hc hd root there xshape plain
  refine ⟨fun missing => value plain ?_, fun values own plain => value plain (own.expanded hr)⟩
  exact Expanding.scalar_of_alias hr shape missing (aliases.trans named) hcontent entry first

/-- An environment that gives `db` an alias of `shared`, whose `host` is `remote`; in the default
tree `db` has one entry of its own. -/
def sharedHost (own : NodeData) : Configuration where
  default := .ofDrafts .default <|
    .cons { key := "shared", anchor := "s" }
      (.cons (.ofScalar "host" (.string "remote")) .nil .nil) <|
    .cons { key := "db" } (.cons own .nil .nil) .nil
  environments := .ofDrafts .environments <|
    .cons { key := "dev" } (.cons { key := "db", aliases := ["s"] } .nil .nil) .nil

/-- Where the default tree has another entry, the alias counts. -/
theorem alias_override_exact_port :
    ∃ tree, (sharedHost (.ofScalar "port" (.number (.int 5432)))).compile .standard "dev" =
        .ok tree ∧
      tree.valueAt? [.key "db", .key "host"] = some (.string "remote") := by
  obtain ⟨tree, hc⟩ : ∃ tree, (sharedHost (.ofScalar "port" (.number (.int 5432)))).compile
      .standard "dev" = .ok tree := Outcome.isSome_toOption.1 (by decide +kernel)
  have lineage : (sharedHost (.ofScalar "port" (.number (.int 5432)))).lineage "dev" =
      .ok ([] ++ [1]) := by cbv
  have plain : Markers.Plain .standard (some (.string "remote")) := by
    intro text htext
    cases htext
    decide +kernel
  obtain ⟨alone, -⟩ := @alias_override_exact _ .standard "dev" "s" "host" [] 1 ["db"] [] [] _ _ _
    [some (.string "remote")] tree lineage hc (by rfl) (by rfl) (by rfl) (by rfl) (by rfl)
    ⟨_, by rfl, by rfl, by rfl⟩ plain fun _ hb => absurd hb List.not_mem_nil
  exact ⟨tree, hc, alone (by rfl)⟩

/-- Where the default tree has the entry, it goes before the alias of the environment. -/
theorem default_before_alias :
    let c := sharedHost (.ofScalar "host" (.string "local"))
    c.lineage "dev" = .ok [1] ∧
      (∃ o, (c.layer 1).sole? [.key "db"] = some o ∧ o.label.shape = .object ∧
        o.label.aliases = ["s"] ∧ o.childrenAt (.key "host") = []) ∧
      (∃ content, (Expanding.ofConfiguration c "dev" (c.merged [1])).content? "s" = some content ∧
        content.ScalarAt "host" [some (.string "remote")]) ∧
      ∃ tree, c.compile .standard "dev" = .ok tree ∧
        tree.valueAt? [.key "db", .key "host"] = some (.string "local") := by
  intro c
  refine ⟨by cbv, ⟨_, by rfl, by rfl, by rfl, by rfl⟩,
    ⟨_, by rfl, _, by rfl, by rfl, by rfl⟩, ?_⟩
  have value : (c.compile .standard "dev").toOption.map
      (Tree.valueAt? · [.key "db", .key "host"]) = some (some (.string "local")) := by
    decide +kernel
  obtain ⟨tree, hc, same⟩ := Option.map_eq_some_iff.1 value
  exact ⟨tree, Outcome.toOption_eq_some.1 hc, same⟩

end Configuration

end LayeredConfig
