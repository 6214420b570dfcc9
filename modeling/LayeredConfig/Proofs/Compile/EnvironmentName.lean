import LayeredConfig.Proofs.Compile.CompiledTree
import LayeredConfig.Proofs.Compile.Labels

/-!
# Where the name of an environment matters

Expansion tells the environment in its errors only (`Expanding.expanded_named`). Substitution has it stand
for `env` where no property of that name is in scope; in a document whose values do not refer to `env` it
never does (`Substituting.resolved_named`). So environments with the same merged document compile to the
same tree (`Configuration.compile_of_merged_eq`).
-/

namespace LayeredConfig

/-- The value does not refer to a name. -/
def Markers.Avoids (m : Markers) (name : String) (v : Option Scalar) : Prop :=
  ∀ text, v = some (.string text) → name ∉ m.references text

instance (m : Markers) (name : String) (v : Option Scalar) : Decidable (m.Avoids name v) :=
  match v with
  | some (.string text) => decidable_of_iff (name ∉ m.references text) (by simp [Markers.Avoids])
  | some (.boolean _) | some (.number _) | none => isTrue nofun

/-! ## Expansion -/

section Pass

variable {g g' : Place → String → Except CompileError (Rose Layered)}
  (hg : ∀ place name x, g place name = .ok x → g' place name = .ok x)

include hg

theorem Forest.expanded_mono {f f' : Forest Layered} {parent : Shape} {place : Place} {position : Nat}
    (h : f.expanded g parent place position = .ok f') : f.expanded g' parent place position = .ok f' := by
  induction f generalizing parent place position f' with
  | nil => exact h
  | cons l cs ss ihc ihs =>
    obtain ⟨r, rest, hr, hs, rfl⟩ := expanded_cons_eq_ok.1 h
    obtain ⟨xs, children, hxs, hc, rfl⟩ := Rose.expanded_eq_ok.1 hr
    exact expanded_cons_eq_ok.2
      ⟨_, rest, Rose.expanded_eq_ok.2 ⟨xs, children, Outcome.mapM_mono (hg _) hxs, ihc hc, rfl⟩, ihs hs, rfl⟩

theorem Rose.expanded_mono {r r' : Rose Layered} {place : Place} (h : r.expanded g place = .ok r') :
    r.expanded g' place = .ok r' := by
  obtain ⟨xs, children, hxs, hc, rfl⟩ := expanded_eq_ok.1 h
  exact expanded_eq_ok.2 ⟨xs, children, Outcome.mapM_mono (hg _) hxs, Forest.expanded_mono hg hc, rfl⟩

end Pass

namespace Expanding

/-- The same document for another environment. -/
def named (environment : String) (e : Expanding) : Expanding := { e with environment }

variable {e : Expanding} {environment : String}

theorem expandAlias_named {available : List String} {place : Place} {name : String} {x : Rose Layered}
    (h : e.expandAlias available place name = .ok x) :
    (e.named environment).expandAlias available place name = .ok x := by
  obtain ⟨content, found, here, hx⟩ := expandAlias_eq_ok.1 h
  exact expandAlias_eq_ok.2
    ⟨content, found, here, Rose.expanded_mono (fun _ _ _ inner => expandAlias_named inner) hx⟩
termination_by available.length
decreasing_by exact length_erase_lt here

theorem expanded_named {document : Rose Layered} (h : e.expanded = .ok document) :
    (e.named environment).expanded = .ok document :=
  Rose.expanded_mono (fun _ _ _ => expandAlias_named) h

end Expanding

/-! ## Substitution -/

namespace Substituting

/-- The same document for another environment. -/
def named (environment : String) (e : Substituting) : Substituting := { e with environment }

variable {e : Substituting} {environment : String} {s t : Slot} {name : String}

theorem Names.named {target : Target} (h : e.Names s name target) :
    (e.named environment).Names s name target := by
  cases h with
  | below nearest shape own above =>
    exact .below ⟨nearest.encloses, nearest.entry, nearest.nearest⟩ shape own above
  | last nearest shape other =>
    exact .last ⟨nearest.encloses, nearest.entry, nearest.nearest⟩ shape other
  | environment missing same => exact .environment missing same

theorem Refers.named (h : e.Refers s t) : (e.named environment).Refers s t := by
  obtain ⟨text, name, string, inside, names⟩ := h
  exact ⟨text, name, string, inside, names.named⟩

theorem Reached.named (h : e.Reached s) : (e.named environment).Reached s := by
  induction h with
  | last hn shape => exact .last hn shape
  | refers _ ht ih => exact .refers ih ht.named

theorem Resolvable.named (h : e.Resolvable) : (e.named environment).Resolvable where
  target s text name hs string inside := by
    have hs : e.Reached s := hs.named
    obtain ⟨target, names⟩ := h.target s text name hs string inside
    exact ⟨target, names.named⟩
  acyclic s hs cycle := by
    have hs : e.Reached s := hs.named
    have refers : ∀ s t, (e.named environment).Refers s t → e.Refers s t := fun _ _ h => h.named
    exact h.acyclic s hs (cycle.lift id refers)

/-- Values that do not refer to `env` read as they did. -/
theorem Reading.named (avoids : ∀ s, e.markers.Avoids environmentName (e.value? s))
    {value : Slot → Option Scalar} (h : e.Reading value) : (e.named environment).Reading value := by
  intro s hs
  have hs : e.Reached s := hs.named
  refine ⟨fun text string => ?_, (h s hs).other⟩
  obtain ⟨f, hf, same⟩ := (h s hs).string text string
  refine ⟨f, fun name inside => ?_, same⟩
  obtain ⟨target, names, text⟩ := hf name inside
  cases names with
  | environment _ isEnv => exact absurd (isEnv ▸ inside) (avoids s _ string)
  | below nearest shape own above => exact ⟨_, Names.named (.below nearest shape own above), text⟩
  | last nearest shape other => exact ⟨_, Names.named (.last nearest shape other), text⟩

/-- What a document without references to `env` resolves to does not depend on the environment. -/
theorem resolved_named (settled : e.document.Everywhere Rose.Settled)
    (avoids : ∀ s, e.markers.Avoids environmentName (e.value? s)) {draft : Draft}
    (h : e.resolved = .ok draft) : (e.named environment).resolved = .ok draft := by
  obtain ⟨draft', h'⟩ := exists_resolved (e := e.named environment) settled (resolvable_of_resolved h).named
  obtain ⟨value, reading⟩ := exists_reading h
  rw [h', eq_valued_of_reading h reading, eq_valued_of_reading h' (reading.named avoids)]
  rfl

/-- Each slot of a document holds one of its values, or none. -/
theorem holds_value? {p : Option Scalar → Prop} (missing : p none)
    (holds : e.document.Everywhere fun n => n.label.Holds p) (s : Slot) : p (e.value? s) := by
  unfold value?
  split
  · rename_i key anchors aliases history children found
    have here := (Rose.everywhere_of_mem_located holds (Rose.mem_located_of_at? found)).1 history rfl
    cases layer : history[s.layer]? with
    | none => exact missing
    | some v => exact here v (List.mem_of_getElem? layer)
  · exact missing

end Substituting

/-! ## Compiled trees -/

namespace Configuration

variable {c : Configuration} {m : Markers} {environment other : String} {lineage lineage' : List Handle}
  {tree : Tree}

/-- An environment compiles to what another one with the same merged document compiles to, if no value
refers to `env`. -/
theorem compile_of_merged_eq (hl : c.lineage environment = .ok lineage) (hl' : c.lineage other = .ok lineage')
    (same : c.merged lineage' = c.merged lineage)
    (avoids : c.Everywhere fun n => m.Avoids environmentName n.label.value)
    (h : c.compile m environment = .ok tree) : c.compile m other = .ok tree := by
  obtain ⟨lineage₁, document, draft, hl₁, hd, hr, result⟩ := compile_eq_ok.1 h
  cases hl.symm.trans hl₁
  have settled := Expanding.settled_expanded hd
  have values := Expanding.everywhere_holds_expanded (p := m.Avoids environmentName) nofun avoids hd
  refine compile_eq_ok.2 ⟨lineage', document, draft, hl', ?_, ?_, result⟩
  · rw [same]
    exact Expanding.expanded_named hd
  · exact Substituting.resolved_named (e := ⟨environment, m, document⟩) settled
      (Substituting.holds_value? nofun values) hr

end Configuration

end LayeredConfig
