import LayeredConfig.Proofs.Compile.EnvironmentName
import LayeredConfig.Proofs.Compile.Environments

/-!
# Environments that only inherit

An environment that says no more than what it inherits from compiles to what that one compiles to
(`compile_of_onlyInherits`). Its lineage is the other's and itself (`lineage_of_inherits`), although the
two walks leave different environments out: where the other's walk comes to this environment, it comes
back to where it began. The layer is an empty object, which changes nothing of the object below it.
-/

namespace LayeredConfig

/-- An object without anchor and aliases whose one entry names, under `inherits`, the environment `parent`
in a string, with or without blanks around it. -/
structure Draft.OnlyInherits (parent : String) (d : Draft) : Prop where
  object : d.label.type = .object
  anchor : d.label.anchor = none
  aliases : d.label.aliases = []
  entry : ∃ r text, d.children.roots = [r] ∧ r.label.key = inheritsKey ∧
    r.label.value = some (.string text) ∧ Text.trim text = parent

namespace Draft.OnlyInherits

variable {parent : String} {d : Draft}

theorem inherits (hd : d.OnlyInherits parent) (nonblank : parent ≠ "") :
    d.inherits = .environment parent := by
  obtain ⟨r, text, only, key, string, rfl⟩ := hd.entry
  have found : d.children.findRoot? (·.key == inheritsKey) = some r := by
    rw [Forest.findRoot?_eq_find?, only, List.find?_cons_of_pos (by simp [key])]
  have filled : ¬(Text.trim text).isEmpty := fun empty => nonblank (String.isEmpty_iff.1 empty)
  simp only [Draft.inherits, found, string, if_neg filled]

theorem without (hd : d.OnlyInherits parent) :
    d.layered.without inheritsKey = ⟨.ofData d.label, .nil⟩ := by
  obtain ⟨r, -, only, key, -, -⟩ := hd.entry
  refine Rose.without_layered hd.object fun x hx => ?_
  rw [only] at hx
  rw [List.mem_singleton.1 hx, key]

end Draft.OnlyInherits

namespace Configuration

variable {c : Configuration} {m : Markers} {h : Handle} {hs : List Handle}

/-! ## Lineages -/

section Step

variable {name target : String} {visited : List String} {remaining : List (String × Handle)}
  (hi : c.inheritsOf h = .environment target)

include hi

theorem lineageFrom_eq_ok_of_found {found : String × Handle}
    (hf : remaining.find? (·.1 == target) = some found) :
    c.lineageFrom name h visited remaining = .ok hs ↔
      ∃ ancestors, c.lineageFrom target found.2 (visited ++ [target])
        (remaining.filter (·.1 != target)) = .ok ancestors ∧ ancestors ++ [h] = hs := by
  rw [lineageFrom_of_found hi hf, Outcome.bind_eq_ok]
  simp only [Outcome.pure_eq_ok]

theorem lineageFrom_ne_ok_of_missing (hf : remaining.find? (·.1 == target) = none) :
    c.lineageFrom name h visited remaining ≠ .ok hs := by
  rw [lineageFrom_of_missing hi hf]
  split <;> nofun

end Step

/-- Let environments named `own` inherit from `target`, which the walk has passed. Whether they remain
makes no difference to where a walk ends well: one that comes to them is a cycle. -/
theorem lineageFrom_filter_eq_ok (own target : String) {remaining : List (String × Handle)}
    (leads : ∀ found, remaining.find? (·.1 == own) = some found →
      c.inheritsOf found.2 = .environment target)
    (passed : remaining.find? (·.1 == target) = none) {h : Handle} {hs : List Handle}
    {name : String} {visited visited' : List String} :
    c.lineageFrom name h visited (remaining.filter (·.1 != own)) = .ok hs ↔
      c.lineageFrom name h visited' remaining = .ok hs := by
  cases hi : c.inheritsOf h with
  | nothing => rw [lineageFrom, lineageFrom, hi]
  | invalid => rw [lineageFrom, lineageFrom, hi]
  | environment next =>
    have fewer : (remaining.filter (·.1 != own)).find? (·.1 == next) =
        if next = own then none else remaining.find? (·.1 == next) := find?_filter_ne next own
    by_cases here : next = own
    · subst here
      rw [if_pos rfl] at fewer
      refine iff_of_false (lineageFrom_ne_ok_of_missing hi fewer) fun walk => ?_
      cases found : remaining.find? (·.1 == next) with
      | none => exact lineageFrom_ne_ok_of_missing hi found walk
      | some e =>
        obtain ⟨ancestors, walk, -⟩ := (lineageFrom_eq_ok_of_found hi found).1 walk
        refine lineageFrom_ne_ok_of_missing (leads e found) ?_ walk
        rw [find?_filter_ne, passed, ite_self]
    · rw [if_neg here] at fewer
      cases found : remaining.find? (·.1 == next) with
      | none =>
        exact iff_of_false (lineageFrom_ne_ok_of_missing hi (fewer.trans found))
          (lineageFrom_ne_ok_of_missing hi found)
      | some e =>
        have shorter := length_filter_lt found
        rw [lineageFrom_eq_ok_of_found hi (fewer.trans found), lineageFrom_eq_ok_of_found hi found,
          List.filter_comm]
        refine exists_congr fun ancestors => and_congr_left fun _ => lineageFrom_filter_eq_ok own target ?_ ?_
        · intro found' again
          rw [find?_filter_ne, if_neg (Ne.symm here)] at again
          exact leads found' again
        · rw [find?_filter_ne, passed, ite_self]
termination_by remaining.length
decreasing_by exact shorter

/-- The lineage of an environment that inherits from another is the other's and the environment. -/
theorem lineage_of_inherits {environment parent : String} {found : String × Handle}
    (hf : c.named.find? (·.1 == environment) = some found)
    (hi : c.inheritsOf found.2 = .environment parent) (other : parent ≠ environment) :
    c.lineage environment = .ok hs ↔
      ∃ ancestors, c.lineage parent = .ok ancestors ∧ ancestors ++ [found.2] = hs := by
  have fewer : (c.named.filter (·.1 != environment)).find? (·.1 == parent) =
      c.named.find? (·.1 == parent) := (find?_filter_ne parent environment).trans (if_neg other)
  rw [lineage_of_found hf]
  cases parents : c.named.find? (·.1 == parent) with
  | none =>
    refine iff_of_false (lineageFrom_ne_ok_of_missing hi (fewer.trans parents)) ?_
    rintro ⟨ancestors, walk, -⟩
    rw [lineage_of_missing parents] at walk
    cases walk
  | some e =>
    rw [lineageFrom_eq_ok_of_found hi (fewer.trans parents), lineage_of_found parents, List.filter_comm]
    refine exists_congr fun ancestors => and_congr_left fun _ =>
      lineageFrom_filter_eq_ok environment parent ?_ ?_
    · intro found' again
      rw [find?_filter_ne, if_neg (Ne.symm other), hf] at again
      cases again
      exact hi
    · rw [find?_filter_ne, if_pos rfl]

/-! ## Merged documents -/

/-- Environments that are objects leave an object. -/
theorem shape_merged (sound : c.environments.Sound)
    (objects : ∀ e ∈ c.environments.top.children.rootLabels, e.data.type = .object) {name : String}
    (hl : c.lineage name = .ok hs) : (c.merged hs).label.shape = .object := by
  obtain ⟨found, hf⟩ : ∃ found, c.named.find? (·.1 == name) = some found := by
    rw [← Option.ne_none_iff_exists']
    intro missing
    rw [lineage_of_missing missing] at hl
    cases hl
  rw [lineage_of_found hf] at hl
  obtain ⟨ancestors, rfl⟩ := exists_ancestors hl
  rw [find?_named] at hf
  obtain ⟨r, hr, rfl⟩ := Option.map_eq_some_iff.1 hf
  have branch := List.mem_of_find?_eq_some hr
  have object : (c.layer r.label.handle).label.shape = .object := by
    rw [layer_of_root sound branch, Rose.label_without]
    exact Layered.shape_ofData (objects _ (Forest.label_mem_rootLabels branch))
  rw [merged_concat]
  show (Layered.under _ _).shape = _
  rw [Rose.shape_under, object]
  cases (c.merged ancestors).label.shape <;> rfl

/-- The layer of an environment that only inherits changes nothing. -/
theorem merged_of_onlyInherits {d : Draft} {parent : String} (hd : c.environments.extract h = some d)
    (only : d.OnlyInherits parent) (object : (c.merged hs).label.shape = .object) :
    c.merged (hs ++ [h]) = c.merged hs := by
  rw [merged_concat, layer, hd]
  dsimp only
  rw [only.without]
  refine Rose.overlay_empty object (Layered.shape_ofData only.object) ?_ only.aliases
  exact congrArg Option.toList only.anchor

/-! ## Compiled trees -/

/-- **An environment that only inherits.** Let the environments be objects, and let no value refer to
`env`. An environment without markers whose only entry is `inherits` with a name that is not blank
compiles exactly when the environment of that name does, and to the same tree. -/
theorem compile_of_onlyInherits {environment parent : String} {d : Draft} (sound : c.environments.Sound)
    (objects : ∀ e ∈ c.environments.top.children.rootLabels, e.data.type = .object)
    (avoids : c.Everywhere fun n => m.Avoids environmentName n.label.value)
    (found : c.environment? environment = some h) (hd : c.environments.extract h = some d)
    (only : d.OnlyInherits parent) (nonblank : parent ≠ "") (tree : Tree) :
    c.compile m environment = .ok tree ↔ c.compile m parent = .ok tree := by
  by_cases other : parent = environment
  · rw [other]
  rw [environment?_eq] at found
  obtain ⟨r, hr, rfl⟩ := Option.map_eq_some_iff.1 found
  have branch := List.mem_of_find?_eq_some hr
  have hf : c.named.find? (·.1 == environment) = some (r.label.data.key, r.label.handle) := by
    rw [find?_named, hr, Option.map_some]
  have hi : c.inheritsOf r.label.handle = .environment parent := by
    rw [inheritsOf_of_root sound branch]
    cases (extract_of_root sound branch).symm.trans hd
    exact only.inherits nonblank
  have walks (hs : List Handle) : c.lineage environment = .ok hs ↔
      ∃ ancestors, c.lineage parent = .ok ancestors ∧ ancestors ++ [r.label.handle] = hs :=
    lineage_of_inherits hf hi other
  constructor
  · intro compiled
    obtain ⟨lineage, -, -, hl, -⟩ := compile_eq_ok.1 compiled
    obtain ⟨ancestors, ha, rfl⟩ := (walks lineage).1 hl
    have same := merged_of_onlyInherits hd only (shape_merged sound objects ha)
    exact compile_of_merged_eq hl ha same.symm avoids compiled
  · intro compiled
    obtain ⟨ancestors, -, -, ha, -⟩ := compile_eq_ok.1 compiled
    have same := merged_of_onlyInherits hd only (shape_merged sound objects ha)
    exact compile_of_merged_eq ha ((walks _).2 ⟨ancestors, ha, rfl⟩) same avoids compiled

/-- `prod` inherits from `base`, which overrides a value with an alias, and `copy` only from `prod`. -/
def copying : Configuration where
  default := .ofDrafts .default <|
    .cons { key := "host", type := .string, value := some (.string "local"), anchor := "host" } .nil <|
    .cons (.ofScalar "url" (.string "$\x7bhost\x7d/")) .nil .nil
  environments := .ofDrafts .environments <|
    .cons { key := "copy" } (.cons (.ofScalar "inherits" (.string " prod ")) .nil .nil) <|
    .cons { key := "prod" }
      (.cons (.ofScalar "inherits" (.string "base")) .nil <|
        .cons (.ofScalar "host" (.string "prod.$\x7bhost\x7d")) .nil .nil) <|
    .cons { key := "base" }
      (.cons { key := "proxy", type := .string, aliases := ["host"] } .nil .nil) .nil

theorem compile_of_onlyInherits_copying : ∃ tree,
    copying.compile .standard "copy" = .ok tree ∧ copying.compile .standard "prod" = .ok tree ∧
      tree.entries.map (·.data.key) = ["", "host", "url", "proxy"] := by
  have only : Draft.OnlyInherits "prod"
      ⟨{ key := "copy" }, .cons (.ofScalar "inherits" (.string " prod ")) .nil .nil⟩ :=
    ⟨rfl, rfl, rfl, _, " prod ", rfl, rfl, rfl, by decide +kernel⟩
  have keys : (copying.compile .standard "prod").toOption.map (·.entries.map (·.data.key)) =
      some ["", "host", "url", "proxy"] := by decide +kernel
  obtain ⟨tree, compiled, keys⟩ := Option.map_eq_some_iff.1 keys
  rw [Outcome.toOption_eq_some] at compiled
  have found : copying.environment? "copy" = some 1 := by decide +kernel
  refine ⟨tree, (compile_of_onlyInherits ?_ ?_ ?_ found ?_ only ?_ tree).2 compiled, compiled, keys⟩
  all_goals decide +kernel

/-- An environment without a name overrides a value, and `dev` inherits from a name that is blank. -/
def nameless : Configuration where
  default := .ofDrafts .default (.cons (.ofScalar "a" (.number (.int 1))) .nil .nil)
  environments := .ofDrafts .environments <|
    .cons { key := "" } (.cons (.ofScalar "a" (.number (.int 2))) .nil .nil) <|
    .cons { key := "dev" } (.cons (.ofScalar "inherits" (.string "")) .nil .nil) .nil

/-- A blank name is none, also where an environment bears it: `dev` does not compile to what that one
compiles to. -/
theorem blank_name_inherits_nothing :
    nameless.environments.Sound ∧
      (∀ e ∈ nameless.environments.top.children.rootLabels, e.data.type = .object) ∧
      nameless.environmentNames.Nodup ∧
      (nameless.Everywhere fun n => Markers.standard.Avoids environmentName n.label.value) ∧
      (∃ d, (nameless.environment? "dev").bind nameless.environments.extract = some d ∧ d.OnlyInherits "") ∧
      (nameless.environment? "").isSome ∧
      ∃ tree, nameless.compile .standard "dev" = .ok tree ∧ nameless.compile .standard "" ≠ .ok tree := by
  have only : Draft.OnlyInherits "" ⟨{ key := "dev" }, .cons (.ofScalar "inherits" (.string "")) .nil .nil⟩ :=
    ⟨rfl, rfl, rfl, _, "", rfl, rfl, rfl, by decide +kernel⟩
  refine ⟨by decide +kernel, by decide +kernel, by decide +kernel, by decide +kernel,
    ⟨_, by decide +kernel, only⟩, by decide +kernel,
    .ofDrafts .detached (.cons (.ofScalar "a" (.number (.int 1))) .nil .nil), ?_, ?_⟩
  · decide +kernel
  · decide +kernel

end Configuration

end LayeredConfig
