import LayeredConfig.Proofs.Compile.KeysAndValues
import LayeredConfig.Proofs.Tree.Tidy

/-!
# Compiled trees are canonical

Whatever the layers hold, what they expand to is settled: no key repeats in an object, and scalars are
leaves. Resolving numbers the items and takes each type from the value, so every node of the result is
tidy and says nothing beside (`Forest.everywhere_canonical_valued`).

Main statement: `Configuration.canonical_of_compile`.
-/

namespace LayeredConfig

/-- A node over these children as compiled trees have it. -/
structure NodeData.CanonicalOver (d : NodeData) (children : List NodeData) : Prop where
  tidy : d.TidyOver children
  unadorned : d.Unadorned
  null : d.type.isScalar → d.value = none → d.type = .string

/-! ## What a document resolves to -/

section Valued

variable {value : Slot → Option Scalar}

theorem Forest.map_key_valued (parent : Shape) (place : Place) (position : Nat) (f : Forest Layered) :
    (f.valued value parent place position).rootLabels.map (·.key) = f.rootKeys Layered.key := by
  induction f generalizing position with
  | nil => rfl
  | cons l cs ss _ ih =>
    rw [valued, rootLabels, List.map_cons, Layered.key_valued, ih, rootKeys_cons]

/-- A node of a settled document resolves to a canonical one. -/
theorem Layered.canonicalOver_valued {l : Layered} {cs : Forest Layered}
    (settled : (⟨l, cs⟩ : Rose Layered).Settled) (place here : Place) :
    (l.valued value place).CanonicalOver
      (if l.shape = .array then numberItems (cs.valued value l.shape here 0)
        else cs.valued value l.shape here 0).rootLabels := by
  refine ⟨?_, unadorned_valued place l, ?_⟩
  · unfold valued
    cases shape : l.shape with
    | object =>
      rw [if_neg nofun]
      refine .of_object ?_ rfl rfl
      rw [Forest.map_key_valued]
      exact settled.keyed shape
    | array =>
      rw [if_pos rfl]
      exact .of_array (map_key_numberItems _) rfl rfl
    | scalar history =>
      obtain rfl : cs = .nil := (settled.scalarLeaf history shape).2
      rw [if_neg nofun]
      dsimp only
      split
      · rename_i v _
        refine .of_leaf ?_ v.valueType_isScalar
        rintro _ ⟨⟩
        rfl
      · exact .of_leaf nofun rfl
  · unfold valued
    split
    · nofun
    · nofun
    · split
      · nofun
      · exact fun _ _ => rfl

/-- Whatever a settled document resolves to is canonical at every node. -/
theorem Forest.everywhere_canonical_valued {f : Forest Layered} (hf : f.Everywhere Rose.Settled)
    (parent : Shape) (place : Place) (position : Nat) :
    (f.valued value parent place position).Everywhere (Shallow NodeData.CanonicalOver) := by
  induction f generalizing parent place position with
  | nil => exact everywhere_nil
  | cons l cs ss ihc ihs =>
    obtain ⟨here, inner, others⟩ := everywhere_cons.1 hf
    refine everywhere_cons.2 ⟨Layered.canonicalOver_valued here _ _, ?_, ihs others _ _ _⟩
    have below := ihc inner l.shape (place ++ [parent.step position l]) 0
    split
    · refine Forest.Everywhere.mapRoots below ?_ 0
      exact fun _ _ _ h => ⟨h.tidy.congr rfl rfl,
        ⟨h.unadorned.anchor, h.unadorned.aliases, h.unadorned.comment⟩, h.null⟩
    · exact below

end Valued

/-! ## Compiled trees -/

namespace Configuration

variable {c : Configuration} {m : Markers} {environment : String} {tree : Tree}

/-- Every node of a compiled tree is canonical. -/
theorem everywhere_canonical_of_compile (h : c.compile m environment = .ok tree) :
    (tree.top.map (·.data)).Everywhere (Shallow NodeData.CanonicalOver) := by
  obtain ⟨lineage, document, value, -, expanded, -, rfl⟩ := exists_reading_of_compile h
  have settled := Expanding.settled_expanded expanded
  have root {f : Forest NodeData} (keys : (f.rootLabels.map (·.key)).Nodup) :
      ({ key := Tree.rootKeyOf .detached } : NodeData).CanonicalOver f.rootLabels :=
    ⟨.of_object keys rfl rfl, ⟨rfl, rfl, rfl⟩, nofun⟩
  rw [Tree.map_data_ofDrafts]
  split
  · rename_i object
    refine ⟨root ?_, Forest.everywhere_canonical_valued settled.2 _ _ _⟩
    rw [Rose.valued, Forest.map_key_valued]
    exact settled.1.keyed object
  · exact ⟨root List.nodup_nil, Forest.everywhere_nil⟩

/-- **Compiled trees are canonical.** Whatever the configuration, the markers and the environment: in a
tree that is compiled no two children of a node share a key, the items of every array are keyed by their
positions, containers have no value, scalars have no children and the type of their value, a string where
there is none, and no node has an anchor, an alias or a comment. -/
theorem canonical_of_compile (h : c.compile m environment = .ok tree) :
    tree.UniqueKeys ∧ tree.Numbered ∧ tree.WellTyped ∧
      ∀ e ∈ tree.entries, e.data.Unadorned ∧
        (e.data.type.isScalar → e.data.value = none → e.data.type = .string) := by
  have canonical := everywhere_canonical_of_compile h
  obtain ⟨keys, items, typed⟩ := Tree.tidy_iff.1 (canonical.mono fun _ hn => hn.tidy)
  refine ⟨keys, items, typed, ?_⟩
  refine (Rose.everywhere_map_label (p := fun d : NodeData => d.Unadorned ∧
    (d.type.isScalar → d.value = none → d.type = .string))).1 ?_
  exact canonical.mono fun _ hn => ⟨hn.unadorned, hn.null⟩

/-- A default tree and an environment in which nothing is in order: a key twice, an object with a value,
a scalar with a child and a value of another type, and an array whose items have other keys. -/
def disorderly : Configuration where
  default := .ofDrafts .default <|
    .cons { key := "db", value := some (.boolean true), anchor := "db", comment := "both" }
      (.cons (.ofScalar "host" (.string "local")) .nil <|
        .cons (.ofScalar "host" (.string "other")) .nil .nil) <|
    .cons { key := "db", type := .string, value := some (.number (.int 1)) }
      (.cons (.ofScalar "inner" (.boolean false)) .nil .nil) .nil
  environments := .ofDrafts .environments <|
    .cons { key := "prod" }
      (.cons { key := "list", type := .array }
        (.cons (.ofScalar "x" (.number (.int 1))) .nil <|
          .cons { key := "x", aliases := ["db"] } .nil .nil) .nil) .nil

theorem canonical_of_compile_disorderly :
    ¬disorderly.UniqueKeys ∧ ¬disorderly.default.WellTyped ∧ ¬disorderly.environments.Numbered ∧
      ∃ tree, disorderly.compile .standard "prod" = .ok tree ∧
        tree.UniqueKeys ∧ tree.Numbered ∧ tree.WellTyped ∧
          ∀ e ∈ tree.entries, e.data.Unadorned ∧
            (e.data.type.isScalar → e.data.value = none → e.data.type = .string) := by
  obtain ⟨tree, compiled⟩ := Outcome.isSome_toOption.1 (by decide +kernel :
    (disorderly.compile .standard "prod").toOption.isSome)
  exact ⟨by decide +kernel, by decide +kernel, by decide +kernel, tree, compiled,
    canonical_of_compile compiled⟩

end Configuration

end LayeredConfig
