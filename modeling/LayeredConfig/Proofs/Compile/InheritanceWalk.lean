import LayeredConfig.Proofs.Compile.Environments
import Mathlib.Data.List.Chain
import Mathlib.Data.List.Induction

/-!
# Where the walk along `inherits` ends

From an environment one goes on to the one that its `inherits` child names. A `Walk` is a way gone so
far: each environment is the first of its name and leads to the next, and no name comes twice. There
are as many names as environments at most, so every walk can be gone on with until it ends in one of
four ways (`exists_walkEnds`), and the lineage of an environment is what the walk from it ends with
(`lineage_eq_iff_walkEnds`).
-/

namespace LayeredConfig.Configuration

variable {c : Configuration} {name target : String} {h : Handle} {r : Except CompileError (List Handle)}
  {names : List String} {steps : List (String × Handle)} {e last : String × Handle}

/-! ## What an environment says -/

/-- The child that says what an environment inherits from. -/
def inheritsEntry? (c : Configuration) (h : Handle) : Option NodeData :=
  (c.environments.child? h inheritsKey).bind c.environments.data?

/-- An environment without such a child, or with one that has no value or a blank text. -/
def StopsAt (c : Configuration) (h : Handle) : Prop :=
  ∀ d ∈ c.inheritsEntry? h,
    d.value = none ∨ ∃ text, d.value = some (.string text) ∧ Text.trim text = ""

/-- An environment whose `inherits` child has a text that reads, without the blanks around it, as
this name. -/
def LeadsTo (c : Configuration) (h : Handle) (target : String) : Prop :=
  ∃ d ∈ c.inheritsEntry? h, ∃ text,
    d.value = some (.string text) ∧ Text.trim text = target ∧ target ≠ ""

/-- An environment whose `inherits` child has a value that is no text. -/
def BreaksAt (c : Configuration) (h : Handle) : Prop :=
  ∃ d ∈ c.inheritsEntry? h, ∃ v, d.value = some v ∧ v.string? = none

theorem StopsAt.inheritsOf (stops : c.StopsAt h) : c.inheritsOf h = .nothing := by
  unfold Configuration.inheritsOf
  split
  · rfl
  · rename_i d known
    rcases stops d known with none | ⟨text, string, blank⟩
    · rw [none]
    · rw [string]
      exact if_pos (String.isEmpty_iff.2 blank)

theorem LeadsTo.inheritsOf (leads : c.LeadsTo h target) : c.inheritsOf h = .environment target := by
  obtain ⟨d, known, text, string, rfl, filled⟩ := leads
  have known : (c.environments.child? h inheritsKey).bind c.environments.data? = some d := known
  unfold Configuration.inheritsOf
  rw [known]
  dsimp only
  rw [string]
  exact if_neg fun blank => filled (String.isEmpty_iff.1 blank)

theorem BreaksAt.inheritsOf (breaks : c.BreaksAt h) : c.inheritsOf h = .invalid := by
  obtain ⟨d, known, v, value, other⟩ := breaks
  have known : (c.environments.child? h inheritsKey).bind c.environments.data? = some d := known
  unfold Configuration.inheritsOf
  rw [known]
  dsimp only
  rw [value]
  cases v with
  | string text => cases other
  | boolean b => rfl
  | number n => rfl

theorem stopsAt_or_leadsTo_or_breaksAt (c : Configuration) (h : Handle) :
    c.StopsAt h ∨ (∃ target, c.LeadsTo h target) ∨ c.BreaksAt h := by
  cases entry : c.inheritsEntry? h with
  | none =>
    refine Or.inl fun d known => ?_
    rw [entry] at known
    cases known
  | some d =>
    have only : ∀ d' ∈ c.inheritsEntry? h, d' = d := by
      intro d' known
      rw [entry] at known
      exact (Option.some.inj known).symm
    cases value : d.value with
    | none => exact Or.inl fun d' known => Or.inl (only d' known ▸ value)
    | some v =>
      cases v with
      | string text =>
        by_cases blank : Text.trim text = ""
        · exact Or.inl fun d' known => Or.inr ⟨text, only d' known ▸ value, blank⟩
        · exact Or.inr (Or.inl ⟨_, d, entry, text, value, rfl, blank⟩)
      | boolean b => exact Or.inr (Or.inr ⟨d, entry, _, value, rfl⟩)
      | number n => exact Or.inr (Or.inr ⟨d, entry, _, value, rfl⟩)

/-! ## Walks -/

/-- A way from the environment of a name: the names that it comes by, with the environments that they
stand for. -/
structure Walk (c : Configuration) (name : String) (steps : List (String × Handle)) : Prop where
  start : steps.head?.map Prod.fst = some name
  found : ∀ e ∈ steps, c.environment? e.1 = some e.2
  linked : steps.IsChain fun e e' => c.LeadsTo e.2 e'.1
  once : (steps.map Prod.fst).Nodup

/-- What a walk ends with: at an environment that inherits from none, the environments that it came
by, the last one first; at one that says no name, that comes back to a name of the walk or that names
no environment, the error that says so. -/
inductive WalkEnds (c : Configuration) (name : String) : Except CompileError (List Handle) → Prop
  | unknown (none : c.environment? name = .none) : WalkEnds c name (.error (.unknownEnvironment name))
  | stopped {steps : List (String × Handle)} {last : String × Handle}
    (walk : c.Walk name (steps ++ [last])) (stops : c.StopsAt last.2) :
    WalkEnds c name (.ok ((steps ++ [last]).map Prod.snd).reverse)
  | invalid {steps : List (String × Handle)} {last : String × Handle}
    (walk : c.Walk name (steps ++ [last])) (breaks : c.BreaksAt last.2) :
    WalkEnds c name (.error (.invalidInherits last.1))
  | cycle {steps : List (String × Handle)} {last : String × Handle} {target : String}
    (walk : c.Walk name (steps ++ [last])) (leads : c.LeadsTo last.2 target)
    (again : target ∈ (steps ++ [last]).map Prod.fst) :
    WalkEnds c name (.error (.inheritanceCycle ((steps ++ [last]).map Prod.fst ++ [target])))
  | missing {steps : List (String × Handle)} {last : String × Handle} {target : String}
    (walk : c.Walk name (steps ++ [last])) (leads : c.LeadsTo last.2 target)
    (none : c.environment? target = .none) :
    WalkEnds c name (.error (.missingInherited last.1 target))

theorem walk_singleton (found : c.environment? name = some h) : c.Walk name [(name, h)] where
  start := rfl
  found e he := by
    rw [List.mem_singleton.1 he]
    exact found
  linked := List.isChain_singleton _
  once := List.nodup_singleton _

theorem Walk.of_concat (walk : c.Walk name (steps ++ [last] ++ [e])) :
    c.Walk name (steps ++ [last]) where
  start := by
    have start := walk.start
    cases steps <;> exact start
  found e' he' := walk.found e' (List.mem_append_left _ he')
  linked := walk.linked.left_of_append
  once := by
    have once := walk.once
    rw [List.map_append] at once
    exact once.of_append_left

theorem Walk.leads (walk : c.Walk name (steps ++ [last] ++ [e])) : c.LeadsTo last.2 e.1 := by
  have linked := walk.linked
  rw [List.isChain_append] at linked
  exact linked.2.2 last (by simp) e (by simp)

theorem Walk.new (walk : c.Walk name (steps ++ [e])) : e.1 ∉ steps.map Prod.fst := by
  intro again
  have once := walk.once
  rw [List.map_append, List.nodup_append] at once
  exact once.2.2 e.1 again e.1 (by simp) rfl

theorem Walk.concat (walk : c.Walk name (steps ++ [last])) (leads : c.LeadsTo last.2 target)
    (found : c.environment? target = some h) (new : target ∉ (steps ++ [last]).map Prod.fst) :
    c.Walk name (steps ++ [last] ++ [(target, h)]) where
  start := by
    have start := walk.start
    cases steps <;> exact start
  found e he := by
    rcases List.mem_append.1 he with he | he
    · exact walk.found e he
    · rw [List.mem_singleton.1 he]
      exact found
  linked := by
    refine List.isChain_append.2 ⟨walk.linked, List.isChain_singleton _, fun x hx y hy => ?_⟩
    rw [List.getLast?_append, List.getLast?_singleton, Option.some_or] at hx
    cases hx
    cases hy
    exact leads
  once := by
    rw [List.map_append, List.nodup_append]
    refine ⟨walk.once, List.nodup_singleton _, ?_⟩
    rintro x hx _ hy rfl
    rw [List.mem_singleton.1 hy] at hx
    exact new hx

/-! ## Every walk ends -/

/-- The environments of other names than those of a walk. -/
def namedBut (c : Configuration) (names : List String) : List (String × Handle) :=
  c.named.filter fun e => !names.contains e.1

theorem find?_named_eq_some : c.named.find? (·.1 == name) = some e ↔ e.1 = name ∧ c.environment? name = some e.2 := by
  rw [find?_named, environment?_eq]
  cases found : c.environments.branches.find? (·.label.data.key == name) with
  | none => simp
  | some r =>
    have key := List.find?_some found
    rw [beq_iff_eq] at key
    rw [Option.map_some, Option.map_some, key, Option.some.injEq, Option.some.injEq, Prod.ext_iff, eq_comm (a := name)]

theorem find?_namedBut (new : target ∉ names) :
    (c.namedBut names).find? (·.1 == target) = c.named.find? (·.1 == target) := by
  rw [namedBut, List.find?_filter]
  congr 1
  funext e
  by_cases here : e.1 = target
  · simp [here, new]
  · simp [here]

theorem find?_namedBut_eq_none (again : target ∈ names) :
    (c.namedBut names).find? (·.1 == target) = none := by
  rw [namedBut, List.find?_filter, List.find?_eq_none]
  intro e _
  by_cases here : e.1 = target
  · simp [here, again]
  · simp [here]

theorem filter_namedBut (names : List String) (target : String) :
    (c.namedBut names).filter (·.1 != target) = c.namedBut (names ++ [target]) := by
  rw [namedBut, namedBut, List.filter_filter]
  refine List.filter_congr fun e _ => ?_
  by_cases here : e.1 = target <;> simp [here]

/-- **A walk ends.** With every step there are fewer environments that it has not come by. -/
theorem exists_walkEnds_of_walk {steps : List (String × Handle)} {last : String × Handle}
    (walk : c.Walk name (steps ++ [last])) : ∃ r, c.WalkEnds name r := by
  rcases c.stopsAt_or_leadsTo_or_breaksAt last.2 with stops | ⟨target, leads⟩ | breaks
  · exact ⟨_, .stopped walk stops⟩
  · by_cases again : target ∈ (steps ++ [last]).map Prod.fst
    · exact ⟨_, .cycle walk leads again⟩
    · cases found : c.environment? target with
      | none => exact ⟨_, .missing walk leads found⟩
      | some h =>
        have inside : (c.namedBut ((steps ++ [last]).map Prod.fst)).find? (·.1 == target) =
            some (target, h) := by
          rw [find?_namedBut again]
          exact find?_named_eq_some.2 ⟨rfl, found⟩
        have fewer : (c.namedBut ((steps ++ [last] ++ [(target, h)]).map Prod.fst)).length <
            (c.namedBut ((steps ++ [last]).map Prod.fst)).length := by
          have more : (steps ++ [last] ++ [(target, h)]).map Prod.fst =
              (steps ++ [last]).map Prod.fst ++ [target] := List.map_append
          rw [more, ← filter_namedBut]
          exact length_filter_lt inside
        exact exists_walkEnds_of_walk (walk.concat leads found again)
  · exact ⟨_, .invalid walk breaks⟩
termination_by (c.namedBut ((steps ++ [last]).map Prod.fst)).length
decreasing_by exact fewer

theorem exists_walkEnds (c : Configuration) (name : String) : ∃ r, c.WalkEnds name r := by
  cases found : c.environment? name with
  | none => exact ⟨_, .unknown found⟩
  | some h =>
    have first : c.Walk name ([] ++ [(name, h)]) := walk_singleton found
    exact exists_walkEnds_of_walk first

/-! ## The lineage is what the walk ends with -/

/-- The lineage is found along any walk from the environment: what is found from the last environment
on, and then those that the walk came by. -/
theorem Walk.lineage_eq (walk : c.Walk name (steps ++ [last])) :
    c.lineage name = (c.lineageFrom last.1 last.2 ((steps ++ [last]).map Prod.fst)
      (c.namedBut ((steps ++ [last]).map Prod.fst))).map (· ++ (steps.map Prod.snd).reverse) := by
  induction steps using List.reverseRecOn generalizing last with
  | nil =>
    have same : last.1 = name := Option.some.inj walk.start
    have found := walk.found last (by simp)
    rw [same] at found
    have rest : c.named.filter (·.1 != name) = c.namedBut [name] := by
      refine List.filter_congr fun e _ => ?_
      by_cases here : e.1 = name <;> simp [here]
    rw [lineage_of_found (find?_named_eq_some.2 ⟨same, found⟩), rest]
    simp only [List.nil_append, List.map_cons, List.map_nil, List.reverse_nil, List.append_nil, same]
    cases c.lineageFrom name last.2 [name] (c.namedBut [name]) <;> rfl
  | append_singleton steps previous ih =>
    have inside : (c.namedBut ((steps ++ [previous]).map Prod.fst)).find? (·.1 == last.1) = some last := by
      rw [find?_namedBut walk.new]
      exact find?_named_eq_some.2 ⟨rfl, walk.found last (by simp)⟩
    have more : (steps ++ [previous] ++ [last]).map Prod.fst =
        (steps ++ [previous]).map Prod.fst ++ [last.1] := List.map_append
    rw [ih walk.of_concat, lineageFrom_of_found walk.leads.inheritsOf inside, filter_namedBut, more]
    cases c.lineageFrom last.1 last.2 ((steps ++ [previous]).map Prod.fst ++ [last.1])
      (c.namedBut ((steps ++ [previous]).map Prod.fst ++ [last.1])) with
    | error e => rfl
    | ok ancestors =>
      show Except.ok ((ancestors ++ [previous.2]) ++ (steps.map Prod.snd).reverse) = Except.ok _
      simp

theorem WalkEnds.lineage_eq (ends : c.WalkEnds name r) : c.lineage name = r := by
  cases ends with
  | unknown none =>
    refine lineage_of_missing (Option.eq_none_iff_forall_ne_some.2 fun e found => ?_)
    rw [(find?_named_eq_some.1 found).2] at none
    cases none
  | @stopped steps last walk stops =>
    rw [walk.lineage_eq, lineageFrom, stops.inheritsOf]
    show Except.ok ([last.2] ++ (steps.map Prod.snd).reverse) = Except.ok _
    simp
  | invalid walk breaks =>
    rw [walk.lineage_eq, lineageFrom, breaks.inheritsOf]
    rfl
  | cycle walk leads again =>
    rw [walk.lineage_eq, lineageFrom_of_missing leads.inheritsOf (find?_namedBut_eq_none again),
      if_pos (List.contains_iff_mem.2 again)]
    rfl
  | @missing steps last target walk leads none =>
    have new : target ∉ (steps ++ [last]).map Prod.fst := by
      intro again
      obtain ⟨e, he, rfl⟩ := List.mem_map.1 again
      rw [walk.found e he] at none
      cases none
    have outside : (c.namedBut ((steps ++ [last]).map Prod.fst)).find? (·.1 == target) = .none := by
      rw [find?_namedBut new]
      refine Option.eq_none_iff_forall_ne_some.2 fun e found => ?_
      rw [(find?_named_eq_some.1 found).2] at none
      cases none
    rw [walk.lineage_eq, lineageFrom_of_missing leads.inheritsOf outside,
      if_neg fun again => new (List.contains_iff_mem.1 again)]
    rfl

/-- **Every graph of environments is classified.** Whatever the environments inherit from, the lineage of
a name is what the walk from the environment of that name ends with, and nothing else; and no environment
is in it twice. -/
theorem lineage_eq_iff_walkEnds (c : Configuration) (name : String) :
    (∀ r, c.lineage name = r ↔ c.WalkEnds name r) ∧
      (c.environments.Sound → ∀ hs, c.lineage name = .ok hs → hs.Nodup) := by
  constructor
  · intro r
    constructor
    · rintro rfl
      obtain ⟨r, ends⟩ := c.exists_walkEnds name
      rwa [ends.lineage_eq]
    · exact WalkEnds.lineage_eq
  · intro sound hs found
    exact nodup_lineage (nodup_handles_named sound) found

/-- An environment whose one entry is `inherits`. -/
def inheriting (name : String) (value : Scalar) : Draft :=
  ⟨{ key := name }, .ofRose (Draft.scalar inheritsKey value)⟩

/-- Environments that inherit from one that inherits from none, from one another in a loop that is
entered from outside, and from one that there is not. -/
def entangled : Configuration where
  default := .empty .default
  environments := .ofDrafts .environments <| .ofRoots
    [⟨{ key := "base" }, .nil⟩, inheriting "prod" (.string " base\t"), inheriting "a" (.string "b"),
      inheriting "b" (.string "c"), inheriting "c" (.string "b"), inheriting "odd" (.boolean true),
      inheriting "lost" (.string "gone")]

theorem lineage_eq_iff_walkEnds_entangled :
    entangled.environments.Sound ∧ entangled.lineage "prod" = .ok [1, 2] ∧ [1, 2].Nodup ∧
      entangled.WalkEnds "a" (.error (.inheritanceCycle ["a", "b", "c", "b"])) ∧
      entangled.WalkEnds "lost" (.error (.missingInherited "lost" "gone")) := by
  have sound : entangled.environments.Sound := by decide +kernel
  have found : entangled.lineage "prod" = .ok [1, 2] := by decide +kernel
  refine ⟨sound, found, (lineage_eq_iff_walkEnds entangled "prod").2 sound _ found, ?_, ?_⟩
  · exact ((lineage_eq_iff_walkEnds entangled "a").1 _).1 (by decide +kernel)
  · exact ((lineage_eq_iff_walkEnds entangled "lost").1 _).1 (by decide +kernel)

end LayeredConfig.Configuration
