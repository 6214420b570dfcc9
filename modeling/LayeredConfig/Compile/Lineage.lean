import LayeredConfig.Configuration
import LayeredConfig.Error

/-!
# Inheritance between environments

An environment may name, under the key `inherits`, the environment that it inherits from. The
lineage of an environment leads from the ancestor that inherits from nothing down to the environment
itself. The walk leaves every environment it visits out of those that remain, so it ends.
-/

namespace LayeredConfig

/-- What an environment inherits from. -/
inductive Inherits where
  | nothing
  | environment (name : String)
  /-- A value that is no name. -/
  | invalid
  deriving DecidableEq, Repr

namespace Configuration

/-- What the environment with a handle inherits from. A blank name is none. -/
def inheritsOf (c : Configuration) (h : Handle) : Inherits :=
  match (c.environments.child? h inheritsKey).bind c.environments.data? with
  | none => .nothing
  | some d =>
    match d.value with
    | none => .nothing
    | some (.string text) =>
      let name := Text.trim text
      if name.isEmpty then .nothing else .environment name
    | some _ => .invalid

/-- The lineage of an environment. `visited` holds the names on the way to it and its own, and
`remaining` the environments of other names. -/
def lineageFrom (c : Configuration) (name : String) (h : Handle) (visited : List String)
    (remaining : List (String × Handle)) : Except CompileError (List Handle) :=
  match c.inheritsOf h with
  | .nothing => .ok [h]
  | .invalid => .error (.invalidInherits name)
  | .environment target =>
    match _found : remaining.find? (·.1 == target) with
    | some (_, next) => do
      let ancestors ← c.lineageFrom target next (visited ++ [target])
        (remaining.filter (·.1 != target))
      pure (ancestors ++ [h])
    | none =>
      if visited.contains target then .error (.inheritanceCycle (visited ++ [target]))
      else .error (.missingInherited name target)
termination_by remaining.length
decreasing_by
  simp only [List.unattach_filter, List.unattach_attach]
  rw [List.length_filter_lt_length_iff_exists]
  exact ⟨_, List.mem_of_find?_eq_some _found, by simpa using List.find?_some _found⟩

/-- The environments that an environment takes its values from: its ancestors, the most distant
first, and the environment itself. -/
def lineage (c : Configuration) (name : String) : Except CompileError (List Handle) :=
  let all := c.environments.top.children.rootLabels.map fun e => (e.data.key, e.handle)
  match all.find? (·.1 == name) with
  | some (_, h) => c.lineageFrom name h [name] (all.filter (·.1 != name))
  | none => .error (.unknownEnvironment name)

end Configuration

end LayeredConfig
