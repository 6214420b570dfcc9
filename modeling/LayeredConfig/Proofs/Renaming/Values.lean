import LayeredConfig.Compile
import LayeredConfig.Proofs.Compile.Labels
import LayeredConfig.Proofs.Compile.Substitution
import LayeredConfig.Proofs.Renaming.Document
import LayeredConfig.Proofs.Renaming.Text

/-!
# Compiled environments under new names

When a relabelling renames the references in texts along with the keys, a reference leads to the
relabelled slot, so slots read as before (`read_relabelled`): where an environment compiled, the
relabelled configuration compiles to the same tree under the new keys (`compileDraft_relabelled`).

References to names that nothing bears may be renamed in any way, since no text that has one is
ever read. So the new names of references, `ν`, are asked to agree with those of keys for the keys
of the document only.
-/

namespace LayeredConfig

/-- The data of a node under another key. -/
def NodeData.rekeyed (ν : String → String) (d : NodeData) : NodeData := { d with key := ν d.key }

theorem numberItems_rekeyed {ν : String → String} (item : ∀ position, ν (itemKey position) = itemKey position)
    (f : Forest NodeData) :
    numberItems (f.map (.rekeyed ν)) = (numberItems f).map (.rekeyed ν) :=
  Forest.mapRoots_map (fun i d => by simp [NodeData.rekeyed, item]) f 0

/-- The tree with other keys below its root. -/
def Tree.rekeyed (ν : String → String) (t : Tree) : Tree :=
  { t with
    top := ⟨t.top.label, t.top.children.map fun e => { e with data := e.data.rekeyed ν }⟩ }

theorem Forest.number_map (g : NodeData → NodeData) (f : Forest NodeData) (next : Handle) :
    (f.map g).number next =
      ((f.number next).1.map fun e => { e with data := g e.data }, (f.number next).2) := by
  induction f generalizing next with
  | nil => rfl
  | cons d cs ss ihc ihs => simp only [Forest.map, Forest.number, ihc, ihs]

theorem Tree.ofDrafts_rekeyed (kind : TreeKind) (ν : String → String) (f : Forest NodeData) :
    Tree.ofDrafts kind (f.map (.rekeyed ν)) = (Tree.ofDrafts kind f).rekeyed ν := by
  have made : ∀ g : Forest NodeData, Tree.ofDrafts kind g =
      ⟨kind, ⟨⟨0, { key := Tree.rootKeyOf kind }⟩, (g.number 1).1⟩, (g.number 1).2⟩ := fun _ => rfl
  rw [made, made, Forest.number_map]
  rfl

/-- The texts of a relabelling have their references renamed by `ν`, which renames `env` as the
relabelling does and keeps the keys of items. -/
structure Relabelling.References (ρ : Relabelling) (ν : String → String) (m : Markers) : Prop where
  closing : '\n' ∉ m.closing.toList
  marks : ∀ name, m.Marks name → m.Marks (ν name)
  text : ρ.text = m.renamedText ν
  environment : ρ.key environmentName = environmentName
  environment_agrees : ν environmentName = environmentName
  item : ∀ position, ν (itemKey position) = itemKey position

namespace Relabelling

variable (ρ : Relabelling)

/-- A slot under a relabelling. -/
def slot (ρ : Relabelling) (s : Slot) : Slot := ⟨ρ.place s.place, s.layer⟩

/-- A target under a relabelling. -/
def target (ρ : Relabelling) : Target → Target
  | .slot s => .slot (ρ.slot s)
  | .environment => .environment

/-- A document in which references are read, under a relabelling. -/
def substituting (ρ : Relabelling) (e : Substituting) : Substituting :=
  { e with document := e.document.map ρ.layered }

theorem step_injective : Function.Injective ρ.step := by
  intro a b h
  cases a <;> cases b <;> simp_all [step]

theorem place_injective : Function.Injective ρ.place :=
  List.map_injective_iff.2 ρ.step_injective

theorem slot_injective : Function.Injective ρ.slot := by
  intro a b h
  obtain ⟨p, i⟩ := a
  obtain ⟨q, j⟩ := b
  obtain ⟨places, layers⟩ := (Slot.mk.injEq _ _ _ _).mp h
  exact (Slot.mk.injEq _ _ _ _).mpr ⟨ρ.place_injective places, layers⟩

/-! ## Slots and their values -/

theorem slots_forest (parent : Shape) (p : Place) (position : Nat) (f : Forest Layered) :
    (f.map ρ.layered).slots (ρ.shape parent) (ρ.place p) position =
      (f.slots parent p position).map ρ.slot := by
  induction f generalizing parent p position with
  | nil => rfl
  | cons l cs ss ihc ihs =>
    rw [Forest.map, Forest.slots, Forest.slots, step_layered, place_concat, List.map_append,
      List.map_append, ihs, ← ihc]
    dsimp only [layered]
    cases l.shape <;> simp [shape, slot, Function.comp_def]

theorem slots_rose (r : Rose Layered) : (r.map ρ.layered).slots = r.slots.map ρ.slot := by
  unfold Rose.slots
  rw [List.map_append, ← slots_forest]
  dsimp only [Rose.map, layered]
  cases r.label.shape <;> simp [shape, slot, place, Function.comp_def]

variable {e : Substituting} {s : Slot}

theorem value?_substituting (e : Substituting) (s : Slot) :
    (ρ.substituting e).value? (ρ.slot s) = (e.value? s).map ρ.scalar := by
  unfold Substituting.value?
  dsimp only [substituting, slot]
  rw [at?_layered]
  cases e.document.at? s.place with
  | none => rfl
  | some r =>
    obtain ⟨⟨key, anchors, aliases, s'⟩, cs⟩ := r
    cases s' with
    | object => rfl
    | array => rfl
    | scalar history =>
      simp only [Option.map_some, Rose.map, layered, shape, List.getElem?_map]
      cases history[s.layer]? <;> rfl

theorem scalar_eq_self {v : Option Scalar} (h : ∀ text, v ≠ some (.string text)) :
    v.map ρ.scalar = v := by
  rcases v with - | text | b | n
  · rfl
  · exact absurd rfl (h text)
  · rfl
  · rfl

/-! ## Targets -/

theorem enclosing_place (p : Place) :
    Substituting.enclosing (ρ.place p) = (Substituting.enclosing p).map ρ.place := by
  unfold Substituting.enclosing place
  rw [List.length_map, List.map_map]
  exact List.map_congr_left fun n _ => (List.map_take).symm

theorem entry?_substituting (e : Substituting) (scope : Place) (name : String) :
    Substituting.entry? (ρ.substituting e) (ρ.place scope) (ρ.key name) =
      (Substituting.entry? e scope name).map (Rose.map ρ.layered) := by
  unfold Substituting.entry?
  dsimp only [substituting]
  rw [at?_layered]
  cases e.document.at? scope with
  | none => rfl
  | some r => exact ρ.child?_layered r (.key name)

theorem nearest?_substituting (e : Substituting) (p : Place) (name : String) :
    (ρ.substituting e).nearest? (ρ.place p) (ρ.key name) =
      (e.nearest? p name).map fun x => (ρ.place x.1, x.2.map ρ.layered) := by
  unfold Substituting.nearest?
  rw [enclosing_place, List.findSome?_map, List.map_findSome?]
  congr 1
  funext scope
  rw [Function.comp_apply, Function.comp_apply, entry?_substituting, Option.map_map,
    Option.map_map]
  congr 1
  funext r
  exact congrArg (·, r.map ρ.layered) (ρ.place_concat scope (.key name))

theorem target_substituting (environment : ρ.key environmentName = environmentName) {name : String}
    {t : Target} (h : e.target s name = .ok t) :
    (ρ.substituting e).target (ρ.slot s) (ρ.key name) = .ok (ρ.target t) := by
  unfold Substituting.target at h ⊢
  rw [show (ρ.slot s).place = ρ.place s.place from rfl, nearest?_substituting]
  cases found : e.nearest? s.place name with
  | none =>
    rw [found] at h
    dsimp only at h
    split at h
    · rename_i same
      cases h
      rw [same, environment]
      rfl
    · cases h
  | some x =>
    obtain ⟨p, r⟩ := x
    rw [found] at h
    rw [Option.map_some]
    have shaped : (r.map ρ.layered).label.shape = ρ.shape r.label.shape := rfl
    dsimp only at h ⊢
    rw [shaped]
    cases hs : r.label.shape with
    | object =>
      rw [hs] at h
      cases h
    | array =>
      rw [hs] at h
      cases h
    | scalar history =>
      rw [hs] at h
      dsimp only [shape] at h ⊢
      rw [List.length_map]
      have layer : (ρ.slot s).layer = s.layer := rfl
      by_cases own : p = s.place
      · rw [if_neg (not_not.2 own)] at h
        rw [if_neg (not_not.2 (congrArg ρ.place own)), layer]
        split at h
        · cases h
        · rename_i above
          cases h
          rw [if_neg above]
          rfl
      · rw [if_pos own] at h
        cases h
        rw [if_pos fun same => own (ρ.place_injective same)]
        rfl

/-! ## Reading -/

section Reading

variable {ρ} {ν : String → String}

/-- The keys of a document, and with them the names that lead somewhere, are renamed by `ν` as by
the relabelling. -/
def Agrees (ρ : Relabelling) (ν : String → String) (document : Rose Layered) : Prop :=
  document.Everywhere fun r => ν r.label.key = ρ.key r.label.key

theorem Agrees.name (agrees : ρ.Agrees ν e.document) {p : Place} {name : String}
    {found : Place × Rose Layered} (h : e.nearest? p name = some found) : ν name = ρ.key name := by
  obtain ⟨scope, nearest, -⟩ := Substituting.nearest_of_nearest? h
  have entry := nearest.entry
  obtain ⟨object, -, child⟩ := Option.bind_eq_some_iff.1 entry
  have key : found.2.label.key = name := by
    unfold Rose.child? at child
    split at child
    · rename_i same
      cases same
      exact @Forest.findRoot?_key Layered Layered.key _ _ _ child
    · cases ‹Step.key name = Step.item _›
    · cases child
  have agreed : ν found.2.label.key = ρ.key found.2.label.key :=
    (Rose.everywhere_of_mem_located agrees (Substituting.mem_located_of_entry_eq entry)).1
  rw [key] at agreed
  exact agreed

theorem References.target (refs : ρ.References ν e.markers) (agrees : ρ.Agrees ν e.document) {name : String}
    {t : Target} (h : e.target s name = .ok t) :
    (ρ.substituting e).target (ρ.slot s) (ν name) = .ok (ρ.target t) := by
  have same : ν name = ρ.key name := by
    unfold Substituting.target at h
    cases found : e.nearest? s.place name with
    | some x => exact agrees.name found
    | none =>
      rw [found] at h
      dsimp only at h
      split at h
      · rename_i env
        rw [env, refs.environment_agrees, refs.environment]
      · cases h
  rw [same]
  exact ρ.target_substituting refs.environment h

/-- A slot reads as before. -/
theorem References.read (refs : ρ.References ν e.markers) (agrees : ρ.Agrees ν e.document)
    {available : List Slot} {s : Slot} {v : Option Scalar} (h : e.read available s = .ok v) :
    (ρ.substituting e).read (available.map ρ.slot) (ρ.slot s) = .ok v := by
  rcases Scalar.string_or_other (e.value? s) with ⟨text, string⟩ | other
  · obtain ⟨f, hf, rfl⟩ := (Substituting.read_string_eq_ok string).1 h
    have string' : (ρ.substituting e).value? (ρ.slot s) =
        some (.string (e.markers.renamedText ν text)) := by
      rw [value?_substituting, string, ← refs.text]
      rfl
    have each : ∀ name ∈ e.markers.references text,
        (ρ.substituting e).referenceText (available.map ρ.slot) (ρ.slot s) (ν name) =
          .ok (f name) := by
      intro name hname
      rw [Substituting.referenceText_eq_ok]
      rcases Substituting.referenceText_eq_ok.1 (hf name hname) with
        ⟨names, fn⟩ | ⟨next, v, names, here, hv, fn⟩
      · exact Or.inl ⟨Substituting.target_eq_ok.1
          (refs.target agrees (Substituting.target_eq_ok.2 names)), fn⟩
      · have shorter := length_erase_lt here
        refine Or.inr ⟨ρ.slot next, v, Substituting.target_eq_ok.1
          (refs.target agrees (Substituting.target_eq_ok.2 names)), List.mem_map_of_mem here, ?_, fn⟩
        rw [← List.map_erase ρ.slot_injective]
        exact refs.read agrees hv
    -- what a new name reads as, for all old names of it alike
    let f' : String → String := fun name =>
      ((ρ.substituting e).referenceText (available.map ρ.slot) (ρ.slot s) name).toOption.getD ""
    have same : ∀ name ∈ e.markers.references text, (f' ∘ ν) name = f name := by
      intro name hname
      show (Except.toOption _).getD "" = f name
      rw [each name hname]
      rfl
    refine (Substituting.read_string_eq_ok string').2 ⟨f', fun name hname => ?_, ?_⟩
    · have renamed := e.markers.references_renamedText refs.closing refs.marks text
      rw [show (ρ.substituting e).markers = e.markers from rfl, renamed] at hname
      obtain ⟨old, hold, rfl⟩ := List.mem_map.1 hname
      rw [each old hold, ← same old hold]
      rfl
    · rw [show (ρ.substituting e).markers = e.markers from rfl,
        Markers.filled_renamedText refs.closing refs.marks, Markers.filled_congr same]
  · rw [Substituting.read_of_other other] at h
    have other' : (ρ.substituting e).value? (ρ.slot s) = e.value? s := by
      rw [value?_substituting, scalar_eq_self ρ other]
    rw [Substituting.read_of_other (other' ▸ other), other']
    exact h
termination_by available.length
decreasing_by exact shorter

/-! ## Compiled trees -/

section Resolved

variable {g g' : Slot → Except CompileError (Option Scalar)}
  (hg : ∀ s v, g s = .ok v → g' (ρ.slot s) = .ok v)

include hg

theorem resolved_layered {p : Place} {l : Layered} {d : NodeData} (hl : ν l.key = ρ.key l.key)
    (h : l.resolved g p = .ok d) :
    (ρ.layered l).resolved g' (ρ.place p) = .ok (d.rekeyed ν) := by
  unfold Layered.resolved at h ⊢
  dsimp only [layered]
  cases shaped : l.shape with
  | object =>
    rw [shaped] at h
    cases h
    exact congrArg Except.ok (congrArg (fun key => ({ key, type := .object } : NodeData)) hl.symm)
  | array =>
    rw [shaped] at h
    cases h
    exact congrArg Except.ok (congrArg (fun key => ({ key, type := .array } : NodeData)) hl.symm)
  | scalar history =>
    rw [shaped] at h
    obtain ⟨v, hv, h⟩ := Outcome.bind_eq_ok.1 h
    have last := hg _ _ hv
    dsimp only [shape]
    rw [List.length_map]
    refine Outcome.bind_eq_ok.2 ⟨v, last, ?_⟩
    cases v with
    | none =>
      cases h
      exact congrArg Except.ok (congrArg (fun key => ({ key, type := .string } : NodeData)) hl.symm)
    | some v =>
      cases h
      exact congrArg Except.ok (congrArg (fun key => NodeData.ofScalar key v) hl.symm)

theorem resolved_forest (item : ∀ position, ν (itemKey position) = itemKey position)
    {f : Forest Layered} {parent : Shape} {p : Place} {position : Nat} {f' : Forest NodeData}
    (hf : f.Everywhere fun r => ν r.label.key = ρ.key r.label.key)
    (h : f.resolved g parent p position = .ok f') :
    (f.map ρ.layered).resolved g' (ρ.shape parent) (ρ.place p) position =
      .ok (f'.map (.rekeyed ν)) := by
  induction f generalizing parent p position f' with
  | nil =>
    rw [← Outcome.pure_eq_ok.1 h]
    rfl
  | cons l cs ss ihc ihs =>
    obtain ⟨hl, hcs, hss⟩ := Forest.everywhere_cons.1 hf
    obtain ⟨d, children, rest, hd, hc, hr, rfl⟩ := Forest.resolved_cons_eq_ok.1 h
    have here : ρ.place p ++ [(ρ.shape parent).step position (ρ.layered l)] =
        ρ.place (p ++ [parent.step position l]) := by
      rw [step_layered, place_concat]
    refine Forest.resolved_cons_eq_ok.2 ⟨d.rekeyed ν, children.map (.rekeyed ν),
      rest.map (.rekeyed ν), ?_, ?_, ihs hss hr, ?_⟩
    · rw [here]
      exact resolved_layered hg hl hd
    · rw [here]
      exact ihc hcs hc
    · have array : (ρ.layered l).shape = .array ↔ l.shape = .array := by
        show ρ.shape l.shape = .array ↔ _
        cases l.shape <;> simp [shape]
      simp only [array, numberItems_rekeyed item]
      by_cases shaped : l.shape = .array
      · rw [if_pos shaped, if_pos shaped]; rfl
      · rw [if_neg shaped, if_neg shaped]; rfl

end Resolved

/-- A document resolves to the tree it resolved to, under the new keys. -/
theorem References.resolved (refs : ρ.References ν e.markers) (agrees : ρ.Agrees ν e.document)
    {draft : Draft} (h : e.resolved = .ok draft) :
    (ρ.substituting e).resolved = .ok (draft.map (.rekeyed ν)) := by
  have reads : ∀ s v, e.read (e.document.slots.erase s) s = .ok v →
      (ρ.substituting e).read ((ρ.substituting e).document.slots.erase (ρ.slot s)) (ρ.slot s) =
        .ok v := by
    intro s v hv
    have slots : (ρ.substituting e).document.slots = e.document.slots.map ρ.slot :=
      ρ.slots_rose e.document
    rw [slots, ← List.map_erase ρ.slot_injective]
    exact refs.read agrees hv
  obtain ⟨d, hdata, h⟩ := Outcome.bind_eq_ok.1 h
  obtain ⟨children, hc, h⟩ := Outcome.bind_eq_ok.1 h
  cases h
  exact Outcome.bind_eq_ok.2 ⟨_, resolved_layered reads agrees.1 hdata, Outcome.bind_eq_ok.2
    ⟨_, resolved_forest reads refs.item agrees.2 hc, rfl⟩⟩

end Reading

/-! ## Environments -/

variable {ρ} {ν : String → String} {m : Markers} {c : Configuration}

/-- An environment that compiled compiles in the relabelled configuration, to the tree it was under
the new keys. -/
theorem References.compileDraft (refs : ρ.References ν m) (keeps : ρ.KeepsLineages c)
    (sound : c.environments.Sound) (blank : ν "" = ρ.key "")
    (keys : c.Everywhere fun n => ν n.label.key = ρ.key n.label.key) {environment : String}
    {f : Forest NodeData} (h : c.compileDraft m environment = .ok f) :
    (ρ.configuration c).compileDraft m environment = .ok (f.map (.rekeyed ν)) := by
  obtain ⟨lineage, hl, h⟩ := Outcome.bind_eq_ok.1 h
  obtain ⟨document, hd, h⟩ := Outcome.bind_eq_ok.1 h
  obtain ⟨draft, hdraft, h⟩ := Outcome.bind_eq_ok.1 h
  cases h
  have merged : (ρ.configuration c).merged lineage = (c.merged lineage).map ρ.layered :=
    ρ.merged_relabelled fun _ => Configuration.contains_of_lineage hl
  have expanded : (Expanding.ofConfiguration (ρ.configuration c) environment
      ((ρ.configuration c).merged lineage)).expanded = .ok (document.map ρ.layered) := by
    rw [merged, expanding_ofConfiguration]
    exact ρ.expanded_expanding hd
  have agrees : ρ.Agrees ν document :=
    Expanding.everywhere_key_expanded (p := fun k => ν k = ρ.key k) blank keys hd
  have resolved := References.resolved (e := ⟨environment, m, document⟩) refs agrees hdraft
  refine Outcome.bind_eq_ok.2 ⟨lineage, (keeps.lineage sound environment).trans hl,
    Outcome.bind_eq_ok.2 ⟨_, expanded, Outcome.bind_eq_ok.2 ⟨_, resolved, ?_⟩⟩⟩
  have type : (draft.map (NodeData.rekeyed ν)).label.type = draft.label.type := rfl
  rw [type]
  split <;> rfl

theorem References.compile (refs : ρ.References ν m) (keeps : ρ.KeepsLineages c)
    (sound : c.environments.Sound) (blank : ν "" = ρ.key "")
    (keys : c.Everywhere fun n => ν n.label.key = ρ.key n.label.key) {environment : String}
    {t : Tree} (h : c.compile m environment = .ok t) :
    (ρ.configuration c).compile m environment = .ok (t.rekeyed ν) := by
  unfold Configuration.compile at h ⊢
  cases hf : c.compileDraft m environment with
  | error e =>
    rw [hf] at h
    cases h
  | ok f =>
    rw [hf] at h
    cases h
    rw [refs.compileDraft keeps sound blank keys hf]
    exact congrArg Except.ok (Tree.ofDrafts_rekeyed .detached ν f)

end Relabelling

end LayeredConfig
