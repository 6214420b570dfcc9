import LayeredConfig.Proofs.Compile.KeysAndValues

/-!
# Documents without aliases and references

Where a merged document has no alias and no last value with a reference, expansion only takes its
anchors away (`Expanding.expanded_of_literal`) and every slot that counts reads as what it holds
(`Substituting.resolved_of_literal`). So the compiled tree has the settings of the merged document
(`exists_compile_of_literal`), provided that this is an object in which no key repeats.
-/

namespace LayeredConfig

/-- A node without aliases whose value has no references. -/
structure NodeData.Literal (m : Markers) (d : NodeData) : Prop where
  aliases : d.aliases = []
  plain : m.Plain d.value

/-- A node of merged layers without aliases whose last value has no references. -/
structure Layered.Literal (m : Markers) (l : Layered) : Prop where
  aliases : l.aliases = []
  plain : ∀ history, l.shape = .scalar history → m.Plain history.getLast?.join

variable {m : Markers}

instance (m : Markers) (d : NodeData) : Decidable (d.Literal m) :=
  decidable_of_iff (d.aliases = [] ∧ m.Plain d.value) ⟨fun h => ⟨h.1, h.2⟩, fun h => ⟨h.1, h.2⟩⟩

theorem Markers.plain_none (m : Markers) : m.Plain none := fun _ h => nomatch h

/-- What is put over a node decides about its aliases and its value. -/
theorem Layered.Literal.under {l u : Layered} (hl : l.Literal m) (hu : u.Literal m) :
    (l.under u).Literal m where
  aliases := by
    unfold Layered.under
    split
    · rw [hu.aliases]
      exact hl.aliases
    · exact hu.aliases
    · exact hu.aliases
  plain history shape := by
    rw [Rose.shape_under] at shape
    split at shape
    · rename_i lower upper lshape ushape
      cases shape
      rw [List.getLast?_append]
      cases last : upper.getLast? with
      | none => exact hl.plain lower lshape
      | some v =>
        have plain := hu.plain upper ushape
        rwa [last] at plain
    · exact hu.plain history shape

theorem Rose.literal_kept (m : Markers) :
    KeptByLayers (fun n => n.label.Literal m) (fun n => n.label.Literal m) where
  single n hn :=
    { aliases := hn.aliases
      plain := by
        intro history shape
        unfold Rose.layered Layered.ofData at shape
        cases htype : n.label.type <;> simp only [htype] at shape <;> cases shape <;> exact hn.plain }
  missing :=
    { aliases := rfl
      plain := by
        intro history shape
        cases shape
        exact m.plain_none }
  without n hn := by
    rw [label_without]
    exact hn
  overlay _ _ hl hu := hl.under hu

/-! ## Expansion -/

theorem Layered.standIn_nil (l : Layered) (own : List (Rose Layered)) :
    l.standIn [] own = ⟨l.plain, .ofRoots own⟩ := by
  unfold standIn
  cases l.shape with
  | scalar history => rfl
  | array => cases own <;> rfl
  | object =>
    have entries : mergedEntries [] own = own := by simp [mergedEntries]
    cases own <;> simp only [entries]

theorem Forest.unaliased_of_literal {expansion : String → Rose Layered} {f : Forest Layered}
    (hf : f.Everywhere fun n => n.label.aliases = []) :
    f.unaliased expansion = f.map Layered.plain := by
  induction f with
  | nil => rfl
  | cons l cs ss ihc ihs =>
    obtain ⟨hl, hcs, hss⟩ := everywhere_cons.1 hf
    rw [unaliased, hl, List.map_nil, Layered.standIn_nil, ihc hcs, ihs hss, ofRoots_roots, map]

theorem Rose.unaliased_of_literal {expansion : String → Rose Layered} {r : Rose Layered}
    (hr : r.Everywhere fun n => n.label.aliases = []) :
    r.unaliased expansion = r.map Layered.plain := by
  rw [unaliased, hr.1, List.map_nil, Layered.standIn_nil, Forest.unaliased_of_literal hr.2,
    Forest.ofRoots_roots, map]

theorem Rose.aliasNames_of_literal {r : Rose Layered}
    (hr : r.Everywhere fun n => n.label.aliases = []) : r.aliasNames = [] :=
  List.flatMap_eq_nil_iff.2
    ((Rose.everywhere_label (p := fun l : Layered => l.aliases = [])).1 hr)

/-- A document without aliases expands to itself without its anchors. -/
theorem Expanding.expanded_of_literal {e : Expanding} (keyed : e.document.Everywhere Rose.Keyed)
    (none : e.document.Everywhere fun n => n.label.aliases = []) :
    e.expanded = .ok (e.document.map Layered.plain) := by
  have no : ∀ {p : String → Prop}, ∀ name ∈ e.document.aliasNames, p name := by
    intro p name hname
    rw [Rose.aliasNames_of_literal none] at hname
    cases hname
  obtain ⟨r, hr⟩ := Rose.exists_expanded (g := e.expandAlias e.names) (r := e.document) no []
  have same : r = e.document.unaliased fun _ => e.document := Rose.expanded_eq_unaliased keyed no hr
  rw [Rose.unaliased_of_literal none] at same
  rw [← same]
  exact hr

/-! ## Substitution -/

namespace Substituting

variable {e : Substituting}

theorem read_of_plain {available : List Slot} {s : Slot} (plain : e.markers.Plain (e.value? s)) :
    e.read available s = .ok (e.value? s) := by
  rcases Scalar.string_or_other (e.value? s) with ⟨text, string⟩ | other
  · have no : e.markers.references text = [] := plain text string
    refine (read_string_eq_ok string).2 ⟨e.markers.mark, fun name hname => ?_, ?_⟩
    · rw [no] at hname
      cases hname
    · rw [Markers.filled_mark, string]
  · exact read_of_other other

/-- A document whose last values have no references resolves to them. -/
theorem resolved_of_literal (settled : e.document.Everywhere Rose.Settled)
    (plain : e.document.Everywhere fun n => n.label.Literal e.markers) :
    e.resolved = .ok (e.document.valued e.value?) ∧
      ∀ place n, (place, n) ∈ e.document.located → ∀ history, n.label.shape = .scalar history →
        e.value? ⟨place, history.length - 1⟩ = history.getLast?.join := by
  have last : ∀ place n, (place, n) ∈ e.document.located → ∀ history,
      n.label.shape = .scalar history →
        e.value? ⟨place, history.length - 1⟩ = history.getLast?.join := by
    intro place n hn history shape
    exact value?_last (Rose.at?_of_mem_located (settled.mono fun _ h => h.keyed)
      (settled.mono fun _ h => h.scalarLeaf) hn) shape
  refine ⟨resolved_eq_valued fun place n hn history shape => read_of_plain ?_, last⟩
  rw [last place n hn history shape]
  exact (Rose.everywhere_of_mem_located plain hn).1.plain history shape

end Substituting

/-! ## The compiled tree -/

theorem Forest.settings_plain (f : Forest Layered) :
    (f.map Layered.plain).map Layered.setting = f.map Layered.setting := map_map _ _ f

namespace Configuration

variable {c : Configuration} {name : String} {lineage : List Handle}

/-- Without aliases and references an environment compiles to what its merged document says. -/
theorem exists_compile_of_literal (chain : c.lineage name = .ok lineage)
    (object : (c.merged lineage).label.shape = .object)
    (keyed : (c.merged lineage).Everywhere Rose.Keyed)
    (literal : (c.merged lineage).Everywhere fun n => n.label.Literal m) :
    ∃ tree, c.compile m name = .ok tree ∧
      tree.settings = ⟨⟨"", .object⟩, ((c.merged lineage).children.map Layered.setting).numbered⟩ ∧
      (tree.top.map (·.data)).children.Everywhere fun n => n.label.Unadorned := by
  let document := (c.merged lineage).map Layered.plain
  have expanded : (Expanding.ofConfiguration c name (c.merged lineage)).expanded = .ok document :=
    Expanding.expanded_of_literal keyed (literal.mono fun _ h => h.aliases)
  let e : Substituting := ⟨name, m, document⟩
  have plain : e.document.Everywhere fun n => n.label.Literal m :=
    Rose.everywhere_map.2 (literal.mono fun _ h => ⟨rfl, h.plain⟩)
  obtain ⟨resolved, last⟩ := Substituting.resolved_of_literal (e := e)
    (Expanding.settled_expanded expanded) plain
  have shape : document.label.shape = .object := object
  have type : (document.valued e.value?).label.type = .object :=
    Layered.type_valued_eq_object.2 shape
  have drafts : c.compileDraft m name = .ok (document.valued e.value?).children := by
    refine Outcome.bind_eq_ok.2 ⟨lineage, chain, Outcome.bind_eq_ok.2 ⟨document, expanded,
      Outcome.bind_eq_ok.2 ⟨document.valued e.value?, resolved, ?_⟩⟩⟩
    rw [if_pos type]
    rfl
  refine ⟨_, by rw [compile, drafts]; rfl, ?_, ?_⟩
  · rw [Tree.settings_ofDrafts, ← Forest.settings_plain]
    refine congrArg (Rose.mk _) (Forest.settings_valued fun x hx history => ?_)
    exact last x.1 x.2 (List.mem_cons_of_mem _ hx) history
  · rw [Tree.map_data_ofDrafts]
    exact Forest.unadorned_valued _ _ _ _

end Configuration

end LayeredConfig
