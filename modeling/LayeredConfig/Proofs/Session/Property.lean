import LayeredConfig.Command.Property
import LayeredConfig.Proofs.Session.Aligned

/-!
# Adding and editing a property

What a success of the two commands went through: a node is found and composed, and a draft is made
from the command line and committed (`addProperty_cases`, `editProperty_cases`).

An override has the type of the default node that it overrides. The keys on offer say which type that
is, and an edit pins it; an addition takes the type on offer only where the command line names none.
So the offer and the named type decide whether an added override has the right type
(`addProperty_type_iff`).
-/

namespace LayeredConfig

namespace Session

variable {s s' : Session} {n node : NodeRef} {p : Composition} {path parent : String}
  {key : Option String} {fields : PropertyFields} {draft : Draft}

/-! ## What a success went through -/

theorem refused_eq_ok {α : Type} {r : Except EditError α} {a : α} :
    refused r = .ok a ↔ r = .ok a := Outcome.mapError_eq_ok

theorem committed_eq_ok {r : Session × NodeRef} :
    s.committed draft = .ok r ↔ s.commit draft = (.ok r.2, r.1) := by
  unfold committed
  obtain ⟨result, after⟩ := s.commit draft
  dsimp only
  rw [Outcome.bind_eq_ok]
  simp only [refused_eq_ok, Outcome.pure_eq_ok]
  constructor
  · rintro ⟨node, rfl, rfl⟩
    rfl
  · intro same
    cases same
    exact ⟨_, rfl, rfl⟩

theorem compose_cases {editing : Bool} {r : Except EditError Composition} (h : s.compose n editing = (r, s')) :
    (r = .error .unknownHandle ∧ s' = s) ∨
      ∃ p, r = .ok p ∧ s' = { s with state := .composing p } ∧ s.config.contains n ∧ p.node = n ∧
        p.editing = editing ∧ p.options = s.config.keyOptions n editing s.environmentsFile s.known := by
  unfold compose at h
  split at h
  · rename_i there
    cases h
    exact Or.inr ⟨_, rfl, rfl, there, rfl, rfl, rfl⟩
  · cases h
    exact Or.inl ⟨rfl, rfl⟩

/-- The end of an addition, when the node is found and the key is known. -/
theorem addUnder_cases {options : List KeyOption} {array : Bool} {name : String} {e : CommandError}
    (h : (do
      if !options.isEmpty && (offeredType options array name).isNone && !array then throw e
      let draft ← refused (fields.draft name none (offeredType options array name))
      s.committed draft : Except CommandError (Session × NodeRef)) = .ok (s', node)) :
    (options ≠ [] → array = false → (offeredType options array name).isSome) ∧
      ∃ draft, fields.draft name none (offeredType options array name) = .ok draft ∧
        s.commit draft = (.ok node, s') := by
  obtain ⟨offered, h⟩ := Outcome.check_eq_ok.1 h
  obtain ⟨draft, drafted, h⟩ := Outcome.bind_eq_ok.1 h
  refine ⟨fun some_ object => ?_, draft, refused_eq_ok.1 drafted, committed_eq_ok.1 h⟩
  simpa [some_, object, Option.isSome_iff_ne_none] using offered

/-- A property is added below a node that is found and composed, under the key that is given or that of
the next item of an array. Unless nothing is on offer, below an object the key is. -/
theorem addProperty_cases (h : s.addProperty parent key fields = .ok (s', node)) :
    ∃ n p draft, s.config.resolvePath parent = .ok n ∧
      s.compose n false = (.ok p, { s with state := .composing p }) ∧
      (p.options ≠ [] → (s.config.tree? n.tree).any (·.isArray n.handle) = false →
        (offeredType p.options false (key.getD "")).isSome) ∧
      fields.draft (key.getD "") none
        (offeredType p.options ((s.config.tree? n.tree).any (·.isArray n.handle)) (key.getD "")) =
          .ok draft ∧
      ({ s with state := .composing p } : Session).commit draft = (.ok node, s') := by
  unfold addProperty at h
  obtain ⟨n, found, h⟩ := Outcome.bind_eq_ok.1 h
  generalize composed : s.compose n false = composition at h
  obtain ⟨r, after⟩ := composition
  obtain ⟨p, accepted, h⟩ := Outcome.bind_eq_ok.1 h
  obtain rfl := refused_eq_ok.1 accepted
  obtain ⟨bad, -⟩ | ⟨_, same, rfl, -⟩ := compose_cases composed
  · cases bad
  cases same
  obtain ⟨offered, draft, drafted, committed⟩ :
      (p.options ≠ [] → (s.config.tree? n.tree).any (·.isArray n.handle) = false →
        (offeredType p.options ((s.config.tree? n.tree).any (·.isArray n.handle)) (key.getD "")).isSome) ∧
        ∃ draft, fields.draft (key.getD "") none (offeredType p.options
          ((s.config.tree? n.tree).any (·.isArray n.handle)) (key.getD "")) = .ok draft ∧
        ({ s with state := .composing p } : Session).commit draft = (.ok node, s') := by
    cases key with
    | some name => exact addUnder_cases h
    | none =>
      dsimp only at h
      split at h
      · exact addUnder_cases h
      · cases h
  refine ⟨n, p, draft, refused_eq_ok.1 found, composed, fun some_ object => ?_, drafted, committed⟩
  have := offered some_ object
  rwa [object] at this

theorem editProperty_cases (h : s.editProperty path key fields = .ok (s', node)) :
    ∃ n p current draft, s.config.resolvePath path = .ok n ∧ s.config.data? n = some current ∧
      s.compose n true = (.ok p, { s with state := .composing p }) ∧
      fields.draft (key.getD current.key) (some current) none = .ok draft ∧
      ({ s with state := .composing p } : Session).commit draft = (.ok node, s') := by
  unfold editProperty at h
  obtain ⟨n, found, h⟩ := Outcome.bind_eq_ok.1 h
  cases known : s.config.data? n with
  | none =>
    rw [known] at h
    cases h
  | some current =>
    rw [known] at h
    dsimp only at h
    generalize composed : s.compose n true = composition at h
    obtain ⟨r, after⟩ := composition
    obtain ⟨p, accepted, h⟩ := Outcome.bind_eq_ok.1 h
    obtain rfl := refused_eq_ok.1 accepted
    obtain ⟨bad, -⟩ | ⟨_, same, rfl, -⟩ := compose_cases composed
    · cases bad
    cases same
    obtain ⟨draft, drafted, h⟩ := Outcome.bind_eq_ok.1 h
    exact ⟨n, p, current, draft, refused_eq_ok.1 found, known, composed, refused_eq_ok.1 drafted,
      committed_eq_ok.1 h⟩


/-! ## The type of an addition -/

/-- A type that is named is taken, else the one that is offered. -/
theorem wantedType_offered {type offered : ValueType}
    (h : fields.wantedType none (some offered) = .ok type) :
    type = offered ↔ ∀ name ∈ fields.type, ValueType.ofName name = .ok offered := by
  unfold PropertyFields.wantedType at h
  split at h
  · rename_i name named
    rw [named]
    cases known : ValueType.ofName name with
    | error e =>
      rw [known] at h
      cases h
    | ok t =>
      rw [known] at h
      cases h
      simp [known]
  · rename_i unnamed
    cases h
    simp [unnamed]

/-- A commit of an addition that succeeds adds the draft under the next handle. -/
theorem commit_ok_of_adding (composing : s.state = .composing p) (adding : p.editing = false)
    (h : s.commit draft = (.ok node, s')) :
    ∃ t data new, s.Adds draft p.node t data new ∧ node = ⟨p.node.tree, t.next⟩ ∧
      s'.config = s.config.mapTree p.node.tree fun t => (t.graft p.node.handle new).1 := by
  generalize run : Editing.apply (if p.editing then Configuration.edit p.node draft s.markers
    else Configuration.addBelow p.node draft) s.config = result at h
  obtain ⟨r, c'⟩ := result
  rw [commit_of_composing composing draft run] at h
  have after : s'.config = c' := by
    rw [← config_commit composing run, commit_of_composing composing draft run, h]
  rw [adding] at run
  obtain ⟨_, rfl, -⟩ | ⟨t, data, new, tree, known, admitted, rfl, rfl⟩ := Configuration.addBelow_cases run
  · cases h
  · cases h
    exact ⟨t, data, new, ⟨⟨p, composing, adding, rfl⟩, tree, known, admitted⟩, rfl, after⟩


end Session

/-- What is added of a draft without children. Below an array it gets another key. -/
theorem Configuration.admittedBelow_leaf {t : Tree} {parent : Handle} {data : NodeData} {path : String}
    {draft new : Draft} (ha : admittedBelow t parent data path draft = .ok new)
    (leaf : draft.children = .nil) :
    new = ⟨new.label, .nil⟩ ∧ new.label.type = draft.label.type ∧
      (data.type ≠ .array → new.label.key = draft.label.key) := by
  unfold admittedBelow at ha
  obtain ⟨-, ha⟩ := Outcome.check_eq_ok.1 ha
  obtain ⟨-, ha⟩ := Outcome.check_eq_ok.1 ha
  have type := Draft.sanitized_type ha
  have key := Draft.sanitized_key ha
  have nil := Draft.sanitized_nil ha leaf
  refine ⟨?_, type, fun object => key.trans (if_neg object)⟩
  rw [← nil]

namespace Session

variable {s s' : Session} {n node : NodeRef} {p : Composition} {parent : String}
  {key : Option String} {fields : PropertyFields} {settings : Settings} {c : Configuration}

theorem draft_cases {key : String} {base : Option NodeData} {offered : Option ValueType} {draft : Draft}
    (h : fields.draft key base offered = .ok draft) :
    draft.label.key = key ∧ draft.children = .nil ∧
      fields.wantedType base offered = .ok draft.label.type := by
  unfold PropertyFields.draft at h
  obtain ⟨type, typed, h⟩ := Outcome.bind_eq_ok.1 h
  obtain ⟨value, -, h⟩ := Outcome.bind_eq_ok.1 h
  cases h
  exact ⟨rfl, rfl, typed⟩

/-- The type on offer for the key of an addition. Below an array the key on the command line does not
count. -/
theorem offeredType_added {options : List KeyOption} {array : Bool} {key added : String}
    (offers : options ≠ []) (object : array = false → added = key)
    (offered : array = false → (offeredType options false key).isSome) :
    ∃ type, offeredType options array key = some type ∧ offeredType options array added = some type := by
  cases array with
  | true =>
    obtain ⟨o, os, rfl⟩ := List.exists_cons_of_ne_nil offers
    exact ⟨o.type, rfl, rfl⟩
  | false =>
    rw [object rfl]
    obtain ⟨type, known⟩ := Option.isSome_iff_exists.1 (offered rfl)
    exact ⟨type, known, known⟩

/-- **The type of an added override.** An addition below a node of the environments for which keys are
on offer makes a new last child of it, and a type is on offer for its key. The child has this type iff
the command line names no other. -/
theorem addProperty_type_iff (hc : c.Sound) (found : c.resolvePath parent = .ok n)
    (env : n.tree = .environments)
    (offers : c.keyOptions n false false settings.environments ≠ [])
    (added : (Session.start settings c).addProperty parent key fields = .ok (s', node)) :
    ∃ d type, s'.config.data? node = some d ∧
      s'.config.environments.children n.handle = c.environments.children n.handle ++ [node.handle] ∧
      offeredType (c.keyOptions n false false settings.environments) (c.environments.isArray n.handle)
        d.key = some type ∧
      (c.environments.isArray n.handle = false → d.key = key.getD "") ∧
      (d.type = type ↔ ∀ name ∈ fields.type, ValueType.ofName name = .ok type) := by
  obtain ⟨n', p, draft, found', composed, offered, drafted, committed⟩ := addProperty_cases added
  obtain rfl : n = n' := Except.ok.inj (found.symm.trans found')
  obtain ⟨bad, -⟩ | ⟨_, same, -, -, rfl, adding, options⟩ := compose_cases composed
  · cases bad
  cases same
  have tree : (start settings c).config.tree? p.node.tree = some c.environments := by rw [env]; rfl
  have options : p.options = c.keyOptions p.node false false settings.environments := options
  rw [tree, Option.any_some, options] at offered drafted
  obtain ⟨t, data, new, adds, rfl, after⟩ := commit_ok_of_adding rfl adding committed
  obtain rfl : c.environments = t := Option.some.inj (tree.symm.trans adds.tree)
  have known : c.environments.data? p.node.handle = some data := adds.known
  have there := Tree.contains_of_data? known
  obtain ⟨key_eq, leaf, wanted⟩ := draft_cases drafted
  obtain ⟨new_eq, type_eq, keeps⟩ := Configuration.admittedBelow_leaf adds.admitted leaf
  have same_key : c.environments.isArray p.node.handle = false → new.label.key = key.getD "" := by
    intro object
    rw [keeps fun array => Bool.eq_false_iff.1 object ((Tree.isArray_of_data? known).2 array), key_eq]
  obtain ⟨type, on_offer, on_offer'⟩ := offeredType_added offers same_key (offered offers)
  rw [on_offer] at wanted
  have environments : s'.config.environments = (c.environments.graft p.node.handle new).1 := by
    rw [after, env]
    rfl
  refine ⟨new.label, type, ?_, ?_, on_offer', same_key, type_eq ▸ wantedType_offered wanted⟩
  · rw [Configuration.data?, env]
    show s'.config.environments.data? _ = _
    rw [environments, new_eq, hc.2.data?_graft_leaf there, if_pos rfl]
  · rw [environments, Tree.children_graft there]

/-- A default number, and an environment that does not override it yet. -/
def portOnOffer : Configuration where
  default := .ofDrafts .default (.cons (.ofScalar "port" (.number (.int 1))) .nil .nil)
  environments := .ofDrafts .environments (.cons { key := "prod" } .nil .nil)

/-- Settings that offer no environments. -/
def noneKnown : Settings where
  defaultFile := "config.yaml"
  environments := []
  markers := .standard

theorem addProperty_type_iff_portOnOffer :
    portOnOffer.Sound ∧ portOnOffer.resolvePath "environments.prod" = .ok ⟨.environments, 1⟩ ∧
      ∃ s' node, (Session.start noneKnown portOnOffer).addProperty "environments.prod" (some "port")
          { value := some "80" } = .ok (s', node) ∧
        ∃ d type, s'.config.data? node = some d ∧ d.key = "port" ∧
          offeredType (portOnOffer.keyOptions ⟨.environments, 1⟩ false false []) false d.key = some type ∧
          d.type = type := by
  have sound : portOnOffer.Sound := by decide +kernel
  have found : portOnOffer.resolvePath "environments.prod" = .ok ⟨.environments, 1⟩ := by decide +kernel
  obtain ⟨⟨s', node⟩, added⟩ := Outcome.isSome_toOption.1
    (show ((Session.start noneKnown portOnOffer).addProperty "environments.prod" (some "port")
      { value := some "80" }).toOption.isSome by decide +kernel)
  obtain ⟨d, type, known, -, offered, key, same⟩ :=
    addProperty_type_iff sound found rfl (by decide +kernel) added
  exact ⟨sound, found, s', node, added, d, type, known, key rfl, offered, same.2 nofun⟩

/-- A number is on offer, and a text is added. -/
theorem added_override_of_other_type :
    portOnOffer.resolvePath "environments.prod" = .ok ⟨.environments, 1⟩ ∧
      portOnOffer.keyOptions ⟨.environments, 1⟩ false false [] =
        [⟨inheritsKey, .string⟩, ⟨"port", .number⟩] ∧
      ((Session.start noneKnown portOnOffer).addProperty "environments.prod" (some "port")
          { type := some "string", value := some "80" }).toOption.bind
            (fun (after, node) => after.config.data? node) =
        some { key := "port", type := .string, value := some (.string "80") } :=
  ⟨by decide +kernel, by decide +kernel, by decide +kernel⟩

end Session

end LayeredConfig
