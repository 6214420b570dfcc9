import LayeredConfig.Proofs.Compile.Environments
import LayeredConfig.Proofs.Compile.Literal
import LayeredConfig.Proofs.Yaml.Unadorned

/-!
# An environment without overrides

An environment that holds at most an empty `inherits` has itself for its lineage, and its layer is an
object without entries (`merged_of_blank`). So it compiles to what the default tree says, and where that
tree bears no markers, comments and references the text is the same, character for character
(`compileText_of_blank`).
-/

namespace LayeredConfig

/-- An `inherits` without a value, or with a blank one. -/
def NodeData.InheritsNothing (d : NodeData) : Prop :=
  d.key = inheritsKey ∧
    (d.value = none ∨ ∃ text, d.value = some (.string text) ∧ (Text.trim text).isEmpty)

/-- An object without aliases and entries, apart from an `inherits` that names no environment. -/
structure Draft.Blank (d : Draft) : Prop where
  object : d.label.type = .object
  aliases : d.label.aliases = []
  entries : ∀ r ∈ d.children.roots, r.label.InheritsNothing

theorem Draft.Blank.inherits {d : Draft} (hd : d.Blank) : d.inherits = .nothing := by
  cases found : d.children.findRoot? (·.key == inheritsKey) with
  | none =>
    unfold Draft.inherits
    rw [found]
  | some r =>
    obtain ⟨-, none | ⟨text, string, empty⟩⟩ := hd.entries r (Forest.findRoot?_mem found)
    · simp only [Draft.inherits, found, none]
    · simp only [Draft.inherits, found, string, if_pos empty]

/-- The layer of an environment without overrides is an object without entries. -/
theorem Draft.Blank.without {d : Draft} (hd : d.Blank) :
    d.layered.without inheritsKey = ⟨.ofData d.label, .nil⟩ :=
  Rose.without_layered hd.object fun r hr => (hd.entries r hr).1

namespace Configuration

variable {c : Configuration} {m : Markers} {name : String} {h : Handle} {d : Draft}

/-- With such an environment nothing is put over the default tree. -/
theorem merged_of_blank (default : c.default.top.label.data.type = .object)
    (hd : c.environments.extract h = some d) (blank : d.Blank) :
    c.merged [h] = ⟨(Layered.ofData c.default.top.label.data).under (.ofData d.label),
      (c.default.top.map (·.data)).children.layered⟩ := by
  have lower : (c.default.top.map (·.data)).layered =
      ⟨.ofData c.default.top.label.data, (c.default.top.map (·.data)).children.layered⟩ :=
    Rose.layered_of_object default
  have layer : c.layer h = ⟨.ofData d.label, .nil⟩ := by
    rw [Configuration.layer, hd]
    exact blank.without
  show (c.default.top.map (·.data)).layered.overlay (c.layer h) = _
  rw [lower, layer, Rose.overlay,
    if_pos ⟨Layered.shape_ofData default, Layered.shape_ofData blank.object⟩]
  rfl

/-- An environment that inherits from nothing is its own lineage. -/
theorem lineage_of_nothing {found : String × Handle}
    (hf : c.named.find? (·.1 == name) = some found) (nothing : c.inheritsOf found.2 = .nothing) :
    c.lineage name = .ok [found.2] := by
  rw [lineage_of_found hf, lineageFrom, nothing]

theorem lineage_of_blank (sound : c.environments.Sound) (found : c.environment? name = some h)
    (hd : c.environments.extract h = some d) (blank : d.Blank) : c.lineage name = .ok [h] := by
  rw [environment?_eq] at found
  obtain ⟨r, hr, rfl⟩ := Option.map_eq_some_iff.1 found
  have branch := List.mem_of_find?_eq_some hr
  have nothing : c.inheritsOf r.label.handle = .nothing := by
    rw [inheritsOf_of_root sound branch]
    cases (extract_of_root sound branch).symm.trans hd
    exact blank.inherits
  have listed : c.named.find? (·.1 == name) = some (r.label.data.key, r.label.handle) := by
    rw [find?_named, hr, Option.map_some]
  exact lineage_of_nothing listed nothing

/-- **An environment without overrides reproduces the default tree.** Let the default tree, an object,
have unique keys and neither markers, comments nor references. An environment that overrides nothing
compiles to the very text of the default tree. -/
theorem compileText_of_blank (sound : c.environments.Sound)
    (object : c.default.top.label.data.type = .object) (keys : c.default.UniqueKeys)
    (unadorned : ∀ e ∈ c.default.entries, e.data.Unadorned)
    (plain : ∀ e ∈ c.default.entries, m.Plain e.data.value)
    (found : c.environment? name = some h) (hd : c.environments.extract h = some d)
    (blank : d.Blank) :
    ∃ text, c.compileText m name = .ok text ∧ Yaml.emitTree true c.default = .ok text := by
  have said : (c.default.top.map (·.data)).Everywhere fun n =>
      n.label.Unadorned ∧ n.label.Literal m := by
    rw [Rose.everywhere_map]
    exact (Rose.everywhere_label (p := fun e : Entry => e.data.Unadorned ∧ e.data.Literal m)).2
      fun e he => ⟨unadorned e he, (unadorned e he).aliases, plain e he⟩
  have keyed : (c.default.top.map (·.data)).layered.Everywhere Rose.Keyed :=
    Rose.everywhere_layered Rose.keyed_kept.single keys.data
  have literal : (c.default.top.map (·.data)).layered.Everywhere fun n => n.label.Literal m :=
    Rose.everywhere_layered (Rose.literal_kept m).single (said.mono fun _ h => h.2)
  -- the environment's own layer adds neither entries nor aliases
  have upper : (Layered.ofData d.label).Literal m :=
    { aliases := blank.aliases
      plain := fun _ shape => by rw [Layered.shape_ofData blank.object] at shape; cases shape }
  have merged := merged_of_blank object hd blank
  have shape : (c.merged [h]).label.shape = .object := by
    rw [merged]
    show (Layered.under _ _).shape = _
    rw [Rose.shape_under, Layered.shape_ofData object, Layered.shape_ofData blank.object]
  rw [Rose.layered_of_object object] at keyed literal
  obtain ⟨tree, compiled, settings, bare⟩ := exists_compile_of_literal (m := m)
    (lineage_of_blank sound found hd blank) shape
    (by rw [merged]; exact ⟨fun _ => keyed.1 (Layered.shape_ofData object), keyed.2⟩)
    (by rw [merged]; exact ⟨literal.1.under upper, literal.2⟩)
  have below : (tree.top.map (·.data)).children.map NodeData.setting =
      ((c.default.top.map (·.data)).children.layered.map Layered.setting).numbered := by
    rw [merged, Tree.settings_eq] at settings
    exact congrArg Rose.children settings
  refine ⟨_, Outcome.bind_eq_ok.2 ⟨tree, compiled, Yaml.emitDraft_of_unadorned false bare⟩, ?_⟩
  rw [below, Yaml.settingsText_layered]
  exact Yaml.emitDraft_of_unadorned true (said.2.mono fun _ h => h.1)

/-- A default tree with empty collections, a missing value and an array in an array, and an environment
that inherits from a blank name. -/
def untouched : Configuration where
  default := .ofDrafts .default <|
    .cons { key := "proxy", type := .string } .nil <|
    .cons { key := "limits" } .nil <|
    .cons { key := "hosts", type := .array }
      (.cons { key := "[0]", type := .array }
        (.cons (.ofScalar "[0]" (.string "yes")) .nil <|
          .cons (.ofScalar "[1]" (.number (.int 1))) .nil .nil) <|
        .cons { key := "[1]", type := .array } .nil .nil) .nil
  environments := .ofDrafts .environments <|
    .cons { key := "dev" } (.cons (.ofScalar "inherits" (.string " ")) .nil .nil) .nil

theorem compileText_of_blank_untouched :
    untouched.environment? "dev" = some 1 ∧
      ∃ text, untouched.compileText .standard "dev" = .ok text ∧
        Yaml.emitTree true untouched.default = .ok text := by
  have found : untouched.environment? "dev" = some 1 := by decide +kernel
  have blank : Draft.Blank ⟨{ key := "dev" }, .cons (.ofScalar "inherits" (.string " ")) .nil .nil⟩ :=
    { object := rfl
      aliases := rfl
      entries := by
        intro r hr
        rw [List.mem_singleton.1 hr]
        exact ⟨rfl, Or.inr ⟨" ", rfl, by decide +kernel⟩⟩ }
  exact ⟨found, compileText_of_blank (by decide +kernel) rfl (by decide +kernel) (by decide +kernel)
    (by decide +kernel) found (by decide +kernel) blank⟩

end Configuration

end LayeredConfig
