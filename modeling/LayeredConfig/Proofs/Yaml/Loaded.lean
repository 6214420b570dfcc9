import LayeredConfig.Proofs.Tree.Fitting
import LayeredConfig.Proofs.Yaml.Conversions
import LayeredConfig.Proofs.Yaml.Names

/-!
# Loaded configurations

Every configuration that was loaded is orderly (`orderly_load`). The names of a document are those of
the anchor tokens of its text, so they are such as anchors have (`named_readDocument`), and so are
those of the drafts that it is converted to (`yields_toDraft`).
-/

namespace LayeredConfig.Yaml

/-! ## The document -/

/-- The nodes of a document have such names as anchors have. The keys of mappings declare nothing that
is read. -/
inductive Document.Named : Document → Prop
  | scalar {line : Nat} {anchor : Option String} {text : String} {plain : Bool} (own : ∀ a ∈ anchor, IsName a) :
    Named (.scalar line anchor text plain)
  | aliased {line : Nat} {name : String} {type : ValueType} (own : IsName name) : Named (.alias line name type)
  | mapping {line : Nat} {anchor : Option String} {entries : List (Document × Document)}
    (own : ∀ a ∈ anchor, IsName a) (inner : ∀ e ∈ entries, Named e.2) : Named (.mapping line anchor entries)
  | sequence {line : Nat} {anchor : Option String} {items : List Document} (own : ∀ a ∈ anchor, IsName a)
    (inner : ∀ d ∈ items, Named d) : Named (.sequence line anchor items)

/-- An open collection whose nodes have such names. -/
inductive Frame.Named : Frame → Prop
  | mapping {line : Nat} {anchor : Option String} {entries : List (Document × Document)} {key : Option Document}
    (own : ∀ a ∈ anchor, IsName a) (inner : ∀ e ∈ entries, e.2.Named) : Named (.mapping line anchor entries key)
  | sequence {line : Nat} {anchor : Option String} {items : List Document} (own : ∀ a ∈ anchor, IsName a)
    (inner : ∀ d ∈ items, d.Named) : Named (.sequence line anchor items)

theorem Frame.Named.add {f : Frame} (h : f.Named) {d : Document} (hd : d.Named) : (f.add d).Named := by
  cases h with
  | @mapping _ _ _ key own inner =>
    cases key with
    | none => exact .mapping own inner
    | some k => exact .mapping own (List.forall_mem_cons.2 ⟨hd, inner⟩)
  | sequence own inner => exact .sequence own (List.forall_mem_cons.2 ⟨hd, inner⟩)

theorem Frame.Named.close {f : Frame} (h : f.Named) : f.close.Named := by
  cases h with
  | mapping own inner => exact .mapping own fun e he => inner e (List.mem_reverse.1 he)
  | sequence own inner => exact .sequence own fun d hd => inner d (List.mem_reverse.1 hd)

namespace Assembly

/-- A document that is being built of nodes with such names. -/
structure Named (a : Assembly) : Prop where
  names : ∀ n ∈ a.names, IsName n
  anchors : ∀ x ∈ a.anchors, IsName x.2
  stack : ∀ f ∈ a.stack, f.Named
  root : ∀ d ∈ a.root, d.Named

variable {a : Assembly}

theorem Named.closeBlock (h : a.Named) (line : Nat) : (a.closeBlock line).Named := by
  unfold Assembly.closeBlock
  split
  · exact h
  · exact ⟨h.names, h.anchors, h.stack, h.root⟩

theorem Named.insert (h : a.Named) {d : Document} (hd : d.Named) : (a.insert d).Named := by
  unfold Assembly.insert
  split
  · refine ⟨h.names, h.anchors, h.stack, fun r hr => ?_⟩
    rcases Option.or_eq_some_iff.1 hr with hr | ⟨-, hr⟩
    · exact h.root r hr
    · cases hr
      exact hd
  · rename_i f fs same
    obtain ⟨hf, hfs⟩ := List.forall_mem_cons.1 (same ▸ h.stack)
    exact ⟨h.names, h.anchors, List.forall_mem_cons.2 ⟨hf.add hd, hfs⟩, h.root⟩

theorem Named.name (h : a.Named) {number : Nat} {name : String} (found : a.anchors.lookup number = some name) :
    IsName name := by
  obtain ⟨before, after, same, -⟩ := List.lookup_eq_some_iff.1 found
  exact h.anchors (number, name) (by simp [same])

theorem Named.declare (h : a.Named) (number : Nat) (type : ValueType) :
    (∀ name ∈ (a.declare number type).1, IsName name) ∧ (a.declare number type).2.Named := by
  unfold Assembly.declare
  split
  · exact ⟨nofun, h⟩
  · split
    · rename_i name found
      refine ⟨?_, h⟩
      rintro _ ⟨⟩
      exact h.name found
    · split
      · exact ⟨nofun, h.names, h.anchors, h.stack, h.root⟩
      · rename_i name names same
        obtain ⟨hn, hns⟩ := List.forall_mem_cons.1 (same ▸ h.names)
        refine ⟨?_, hns, List.forall_mem_cons.2 ⟨hn, h.anchors⟩, h.stack, h.root⟩
        rintro _ ⟨⟩
        exact hn

/-- **An event.** It keeps that the nodes have such names. -/
theorem Named.receive (h : a.Named) (line : Nat) (e : Event) : (a.receive line e).Named := by
  have closed := h.closeBlock line
  unfold Assembly.receive
  generalize a.closeBlock line = a at closed
  cases e with
  | scalar text style number =>
    dsimp only
    have opened : (if style = .literal ∨ style = .folded then { a with openBlock := some line } else a).Named := by
      split
      · exact ⟨closed.names, closed.anchors, closed.stack, closed.root⟩
      · exact closed
    generalize (if style = .literal ∨ style = .folded then { a with openBlock := some line } else a) = a at opened
    have declared := opened.declare number
    exact (declared _).2.insert (.scalar (declared _).1)
  | «alias» number =>
    dsimp only
    split
    · rename_i name found
      exact closed.insert (.aliased (closed.name found))
    · exact ⟨closed.names, closed.anchors, closed.stack, closed.root⟩
  | mappingStart number =>
    obtain ⟨own, declared⟩ := closed.declare number .object
    exact ⟨declared.names, declared.anchors,
      List.forall_mem_cons.2 ⟨.mapping own (List.forall_mem_nil _), declared.stack⟩, declared.root⟩
  | sequenceStart number =>
    obtain ⟨own, declared⟩ := closed.declare number .array
    exact ⟨declared.names, declared.anchors,
      List.forall_mem_cons.2 ⟨.sequence own (List.forall_mem_nil _), declared.stack⟩, declared.root⟩
  | mappingEnd | sequenceEnd =>
    dsimp only
    split
    · exact closed
    · rename_i f fs same
      obtain ⟨hf, hfs⟩ := List.forall_mem_cons.1 (same ▸ closed.stack)
      exact Named.insert (a := { a with stack := fs }) ⟨closed.names, closed.anchors, hfs, closed.root⟩ hf.close
  | _ => exact closed

theorem Named.receiveAll (h : a.Named) (events : List (Nat × Event)) : (a.receiveAll events).Named :=
  List.foldlRecOn (motive := Named) _ _ h fun _ ha e _ => ha.receive e.1 e.2

end Assembly

/-- **Documents.** The nodes of a document that is read have such names as anchors have. -/
theorem named_readDocument {text : String} {d : Document} {source : Source}
    (read : readDocument text = .ok (some d, source)) : d.Named := by
  unfold readDocument at read
  dsimp only at read
  split at read
  · cases read
  · rename_i events _
    split at read
    · cases read
    · refine (Assembly.Named.receiveAll ?_ _).root d (Prod.mk.inj (Except.ok.inj read)).1
      refine ⟨fun n hn => ?_, List.forall_mem_nil _, List.forall_mem_nil _, fun d hd => by cases hd⟩
      obtain ⟨t, ht, same⟩ := List.mem_filterMap.1 hn
      have proper := proper_tokensOf text t ht
      cases kind : t.kind <;> rw [kind] at same proper <;> cases same
      exact proper

/-! ## Drafts -/

/-- Drafts that fit a configuration. -/
abbrev AllFit (f : Forest NodeData) : Prop := f.Everywhere (Rose.Fits IsName)

open Document

theorem names_mergeNames {parent : String} {items : List Document} {names : List String}
    (h : Document.mergeNames parent items = .ok names) (named : ∀ d ∈ items, d.Named) : ∀ a ∈ names, IsName a := by
  induction items generalizing names with
  | nil => cases h; exact nofun
  | cons d items ih =>
    obtain ⟨first, later⟩ := List.forall_mem_cons.1 named
    cases first with
    | aliased own =>
      rw [Document.mergeNames] at h
      obtain ⟨rest, more, rfl⟩ := Outcome.map_eq_ok.1 h
      exact List.forall_mem_cons.2 ⟨own, ih more later⟩
    | _ => cases h

theorem names_mergeSources {parent : String} {value : Document} {names : List String}
    (h : mergeSources parent value = .ok names) (named : value.Named) : ∀ a ∈ names, IsName a := by
  cases named with
  | scalar => cases h
  | aliased own => cases h; exact List.forall_mem_singleton.2 own
  | mapping => cases h; exact nofun
  | sequence _ inner => exact names_mergeNames h inner

mutual

/-- **Nodes.** The draft of a node fits. -/
theorem yields_toDraft (s : Source) : ∀ (d : Document) (key : String), d.Named →
    Yields (toDraft s key d) fun draft => draft.Everywhere (Rose.Fits IsName)
  | .scalar line anchor text plain, key, .scalar own => by
    rw [toDraft]
    refine .pure ⟨⟨?_, fun _ => rfl⟩, Forest.everywhere_nil⟩
    cases scalarValue text plain <;> simpa [NodeData.Named, NodeData.ofScalar] using own
  | .alias line name type, key, .aliased own => by
    rw [toDraft]
    exact .pure ⟨⟨List.forall_mem_singleton.2 own, fun _ => rfl⟩, Forest.everywhere_nil⟩
  | .mapping line anchor entries, key, .mapping own inner => by
    rw [toDraft]
    refine .bind (yields_entryDrafts s entries key [] inner) fun r hr => ?_
    refine .bind (yields_inlineDrafts s entries r.2 inner hr.2) fun children hc => .pure ⟨⟨?_, nofun⟩, hc⟩
    exact List.forall_mem_append.2 ⟨fun a ha => own a (Option.mem_toList.1 ha), hr.1⟩
  | .sequence line anchor items, key, .sequence own inner => by
    rw [toDraft]
    refine .bind (yields_itemDrafts s items 0 inner) fun children hc => .pure ⟨⟨?_, nofun⟩, hc⟩
    simpa [NodeData.Named] using own

theorem yields_itemDrafts (s : Source) : ∀ (items : List Document) (position : Nat), (∀ d ∈ items, d.Named) →
    Yields (itemDrafts s position items) AllFit
  | [], position, _ => by
    rw [itemDrafts]
    exact .pure Forest.everywhere_nil
  | item :: items, position, h => by
    obtain ⟨first, later⟩ := List.forall_mem_cons.1 h
    rw [itemDrafts]
    refine .after fun comment => .bind (yields_toDraft s item "" first) fun draft hd =>
      .bind (yields_itemDrafts s items (position + 1) later) fun rest hr => .pure ?_
    exact Forest.everywhere_cons.2 ⟨⟨hd.1.names, hd.1.leaf⟩, hd.2, hr⟩

theorem yields_entryDrafts (s : Source) :
    ∀ (entries : List (Document × Document)) (parent : String) (seen : List String),
    (∀ e ∈ entries, e.2.Named) →
    Yields (entryDrafts s parent seen entries) fun r => (∀ a ∈ r.1, IsName a) ∧ AllFit r.2
  | [], parent, seen, _ => by
    rw [entryDrafts]
    exact .pure ⟨nofun, Forest.everywhere_nil⟩
  | (key, value) :: entries, parent, seen, h => by
    obtain ⟨first, later⟩ := List.forall_mem_cons.1 h
    rw [entryDrafts]
    split
    · refine .bind (.lift fun names ok => names_mergeSources ok first) fun names hn =>
        .bind (yields_entryDrafts s entries parent seen later) fun r hr => .pure ⟨?_, hr.2⟩
      exact List.forall_mem_append.2 ⟨hn, hr.1⟩
    · refine .after fun name => .check fun _ => .after fun comment =>
        .bind (yields_toDraft s value name first) fun draft hd =>
        .bind (yields_entryDrafts s entries parent (name :: seen) later) fun r hr => .pure ⟨hr.1, ?_⟩
      exact Forest.everywhere_cons.2 ⟨⟨hd.1.names, hd.1.leaf⟩, hd.2, hr.2⟩

theorem yields_inlineDrafts (s : Source) : ∀ (entries : List (Document × Document)) (own : Forest NodeData),
    (∀ e ∈ entries, e.2.Named) → AllFit own → Yields (inlineDrafts s own entries) AllFit
  | [], own, _, ho => by
    rw [inlineDrafts]
    exact .pure ho
  | (key, .mapping line anchor inner) :: entries, own, h, ho => by
    obtain ⟨first, later⟩ := List.forall_mem_cons.1 h
    rw [inlineDrafts]
    split
    · exact .bind (yields_toDraft s (.mapping line anchor inner) "" first) fun draft hd =>
        yields_inlineDrafts s entries _ later (ho.addMissing hd.2)
    · exact yields_inlineDrafts s entries own later ho
  | (key, .scalar _ _ _ _) :: entries, own, h, ho | (key, .alias _ _ _) :: entries, own, h, ho
  | (key, .sequence _ _ _) :: entries, own, h, ho => by
    simp only [inlineDrafts, ite_self]
    exact yields_inlineDrafts s entries own (List.forall_mem_cons.1 h).2 ho

end

theorem yields_treeDrafts (s : Source) (key : String) {value : Document} (named : value.Named) :
    Yields (value.treeDrafts s key) AllFit := by
  unfold treeDrafts
  split
  · exact .pure Forest.everywhere_nil
  · cases value with
    | mapping => exact .bind (yields_toDraft s _ key named) fun draft hd => .pure hd.2
    | _ => exact nofun

/-! ## Configurations -/

/-- Environments that are made objects fit as they did. -/
theorem fits_normalizeEnvironments {f f' : Forest Entry} (done : normalizeEnvironments f = .ok f')
    (hf : f.Everywhere (Shallow (Entry.Fits IsName))) :
    f'.handles = f.handles ∧ f'.Everywhere (Shallow (Entry.Fits IsName)) := by
  induction f generalizing f' with
  | nil =>
    cases done
    exact ⟨rfl, hf⟩
  | cons e cs ss _ ih =>
    obtain ⟨here, inner, others⟩ := Forest.everywhere_cons.1 hf
    rw [normalizeEnvironments] at done
    split at done
    · obtain ⟨rest, normal, same⟩ := Outcome.bind_eq_ok.1 done
      cases same
      obtain ⟨handles, fits⟩ := ih normal others
      exact ⟨by rw [Forest.handles_cons, handles, Forest.handles_cons], Forest.everywhere_cons.2 ⟨here, inner, fits⟩⟩
    · split at done
      · obtain ⟨rest, normal, same⟩ := Outcome.bind_eq_ok.1 done
        cases same
        obtain ⟨handles, fits⟩ := ih normal others
        exact ⟨by rw [Forest.handles_cons, handles, Forest.handles_cons],
          Forest.everywhere_cons.2 ⟨⟨here.1, nofun⟩, inner, fits⟩⟩
      · cases done

/-- The drafts of a tree below its root. -/
theorem orderly_graftAll_root {t : Tree} {key : String} (ht : t.Orderly IsName key) {drafts : Forest NodeData}
    (hd : AllFit drafts) : (t.graftAll t.root drafts).1.Orderly IsName key := by
  refine ht.graftAll hd fun d hd => ?_
  rw [Tree.data?, Tree.find?_root, Option.map_some] at hd
  cases hd
  rw [ht.root.2]
  rfl

/-- **Entries.** A configuration stays orderly as the entries of a document are added. -/
theorem yields_addEntries (s : Source) {entries : List (Document × Document)} (named : ∀ e ∈ entries, e.2.Named)
    {c : Configuration} (hc : c.Orderly IsName) : Yields (addEntries s c entries) (·.Orderly IsName) := by
  induction entries generalizing c with
  | nil =>
    rw [addEntries]
    exact .pure hc
  | cons e entries ih =>
    obtain ⟨first, later⟩ := List.forall_mem_cons.1 named
    rw [addEntries]
    refine .after fun name => ?_
    split
    · refine .bind (yields_treeDrafts s name first) fun drafts hd => ih later ?_
      exact ⟨orderly_graftAll_root hc.default hd, hc.environments⟩
    · split
      · refine .bind (yields_treeDrafts s name first) fun drafts hd => ?_
        have grown := orderly_graftAll_root hc.environments hd
        dsimp only
        generalize (c.environments.graftAll c.environments.root drafts).1 = envs at grown ⊢
        refine .bind (.lift fun children ok => ok) fun children normal => ih later ⟨hc.default, ?_⟩
        obtain ⟨here, inner, -⟩ := Forest.everywhere_cons.1 grown.fits
        obtain ⟨handles, fits⟩ := fits_normalizeEnvironments normal inner
        have same : (Forest.ofRose ⟨envs.top.label, children⟩).handles = envs.forest.handles := by
          rw [Forest.ofRose, Forest.handles_cons, handles, Tree.forest, Forest.ofRose, Forest.handles_cons]
        refine ⟨⟨same ▸ grown.sound.distinct, fun h hh => grown.sound.below h (same ▸ hh)⟩, grown.root,
          Forest.everywhere_cons.2 ⟨⟨here.1, fun scalar => ?_⟩, fits, Forest.everywhere_nil⟩⟩
        rw [grown.root.2] at scalar
        cases scalar
      · exact .throw

/-- **Loaded configurations** are orderly. -/
theorem orderly_load {text : String} {c : Configuration} (loaded : load text = .ok c) : c.Orderly IsName := by
  unfold load at loaded
  obtain ⟨⟨root, source⟩, read, loaded⟩ := Outcome.bind_eq_ok.1 loaded
  cases root with
  | none =>
    cases loaded
    exact Configuration.orderly_empty
  | some d =>
    dsimp only at loaded
    split at loaded
    · cases loaded
      exact Configuration.orderly_empty
    · have named := named_readDocument read
      cases named with
      | mapping _ inner =>
        obtain ⟨claimed, done⟩ := Outcome.run'_eq_ok.1 loaded
        exact yields_addEntries source inner Configuration.orderly_empty [] (c, claimed) done
      | _ => cases loaded

end LayeredConfig.Yaml
