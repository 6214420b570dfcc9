import LayeredConfig.Proofs.Session.Aliases
import LayeredConfig.Proofs.Session.Aligned
import LayeredConfig.Proofs.Yaml.Loaded
import LayeredConfig.Proofs.Yaml.Saved

/-!
# Saving a session and loading it again

A session that begins with a loaded configuration keeps it orderly (`orderly_perform`): its drafts have
no children and proper names, the roots keep their keys and their types, and overrides are no roots. So
of what a run leaves, once it is saved, the loader asks two things only: distinct keys in each object,
and environments that read as mappings (`load_emit_run_iff`). A session keeps neither. The first breaks
where an override is renamed to the name of a sibling (`saved_with_two_properties_of_one_key`).
-/

namespace LayeredConfig

variable {P : String → Prop}

theorem NodeData.Named.congr {d d' : NodeData} (h : d.Named P) (same : d'.names = d.names) : d'.Named P := by
  obtain ⟨anchor, aliases⟩ := Prod.mk.inj same
  unfold NodeData.Named
  rw [anchor, aliases]
  exact h

theorem NodeData.Named.following {d : NodeData} (h : d.Named P) {old new : Option String} (hn : ∀ a ∈ new, P a) :
    (d.following old new).Named P := by
  refine List.forall_mem_append.2 ⟨(List.forall_mem_append.1 h).1, fun a ha => ?_⟩
  rcases mem_followAnchor ha with same | ⟨inside, -⟩
  · exact hn a same
  · exact (List.forall_mem_append.1 h).2 a inside

namespace Configuration

variable {c : Configuration} {n : NodeRef} {t : Tree} {live : NodeData} {draft new : Draft}

/-! ## What changes a configuration -/

theorem Orderly.tree (hc : c.Orderly P) {kind : TreeKind} (ht : c.tree? kind = some t) :
    t.Orderly P (Tree.rootKeyOf kind) := by
  cases kind with
  | default => cases ht; exact hc.default
  | environments => cases ht; exact hc.environments
  | detached => cases ht

theorem Orderly.mapTree (hc : c.Orderly P) {kind : TreeKind} {f : Tree → Tree}
    (hf : ∀ t, c.tree? kind = some t → (f t).Orderly P (Tree.rootKeyOf kind)) : (c.mapTree kind f).Orderly P := by
  cases kind with
  | default => exact ⟨hf _ rfl, hc.environments⟩
  | environments => exact ⟨hc.default, hf _ rfl⟩
  | detached => exact hc

theorem Orderly.alignAnchor (hc : c.Orderly P) (old : Option String) {new : Option String} (hn : ∀ a ∈ new, P a) :
    (c.alignAnchor old new).Orderly P := by
  rw [alignAnchor_eq]
  have follow {t : Tree} {key : String} (ht : t.Orderly P key) : (t.modifyAll (.following old new)).Orderly P key :=
    ht.modifyAll (fun _ named => named.following hn) fun _ => ⟨rfl, rfl⟩
  exact ⟨follow hc.default, follow hc.environments⟩

theorem Orderly.alignEdit (hc : c.Orderly P) (n : NodeRef) (live new : NodeData) (m : Markers) :
    (c.alignEdit n live new m).Orderly P := by
  unfold Configuration.alignEdit
  split
  · split
    · refine ⟨?_, hc.environments.removeOverrides _⟩
      unfold alignTypeChange
      dsimp only
      split
      · exact hc.default.clear _
      · exact hc.default
    · split
      · unfold alignKeyRename
        split
        · exact hc
        · exact ⟨hc.default.renameReferences _ _ _ _,
            (hc.environments.renameOverrides _ _).renameReferences _ _ _ _⟩
      · exact hc
  · exact hc

/-- The tree that is edited keeps its root. -/
theorem root_alignEdit {aligned : Tree} (ht : c.tree? n.tree = some t) {m : Markers} {new : NodeData}
    (hal : (c.alignEdit n live new m).tree? n.tree = some aligned) : aligned.root = t.root := by
  cases htree : n.tree with
  | default =>
    rw [htree] at ht hal
    cases ht
    cases hal
    rcases c.default_alignEdit n live new m with same | cleared
    · exact congrArg (fun r => r.label.1) same.top
    · rw [cleared]
      rfl
  | environments =>
    have same : c.alignEdit n live new m = c := by
      unfold alignEdit
      exact if_neg fun below => by rw [htree] at below; cases below.1
    rw [same, ht] at hal
    cases hal
    rfl
  | detached =>
    rw [htree] at ht
    cases ht

/-- An edit with a draft without children. The root keeps its key and its type. -/
theorem Orderly.edited (hc : c.Orderly P) (ht : c.tree? n.tree = some t) (hl : t.data? n.handle = some live)
    (ha : admittedEdit t n live draft = .ok new) (leaf : draft.isLeaf) (named : draft.label.Named P) (m : Markers) :
    (c.edited n live new m).Orderly P := by
  obtain ⟨children, rootKey, -⟩ := admittedEdit_ok ha
  have rootType := (admittedEdit_kept ha).1
  have named := named.congr (admittedEdit_names ha)
  refine Orderly.alignAnchor ?_ _ fun a ha => named a (List.mem_append_left _ (Option.mem_toList.2 ha))
  have aligned := hc.alignEdit n live new.label m
  refine aligned.mapTree fun t' ht' => ?_
  have written := (aligned.tree ht').write (h := n.handle) named fun same => ?_
  · rw [writeDraft_leaf (children leaf)]
    exact written
  · rw [root_alignEdit ht ht'] at same
    rw [← same, Tree.data?, Tree.find?_root] at hl
    cases hl
    rw [rootKey (same ▸ t.parent?_root), rootType (same ▸ t.parent?_root)]
    exact (hc.tree ht).root

theorem Orderly.deleted (hc : c.Orderly P) (n : NodeRef) (t : Tree) (data : NodeData) (above : Handle) :
    (c.deleted n t data above).Orderly P := by
  rw [deleted_eq]
  have removed : (c.mapTree n.tree fun t => (t.remove n.handle).1).Orderly P :=
    hc.mapTree fun _ ht => (hc.tree ht).remove n.handle
  have followed : ((c.mapTree n.tree fun t => (t.remove n.handle).1).alignAnchor data.anchor none).Orderly P :=
    removed.alignAnchor data.anchor nofun
  dsimp only
  split
  · exact ⟨followed.default, followed.environments.removeOverrides _⟩
  · exact followed

end Configuration

/-! ## Plain drafts -/

/-- A draft of one node without a comment, with a key and names of letters and digits. -/
structure Draft.Plain (draft : Draft) : Prop where
  leaf : draft.isLeaf
  uncommented : draft.label.comment = none
  names : ∀ a ∈ draft.label.key :: (draft.label.anchor.toList ++ draft.label.aliases),
    a.toList ≠ [] ∧ ∀ c ∈ a.toList, c.isAlphanum

theorem isAnchorChar_of_isAlphanum {c : Char} (h : c.isAlphanum) : Yaml.isAnchorChar c := by
  have other {x : Char} (hx : x.isAlphanum = false) : c ≠ x := by
    rintro rfl
    rw [hx] at h
    cases h
  simp only [Yaml.isAnchorChar, Yaml.isGap, Yaml.isBlank, Yaml.isBreakOrEnd, Yaml.isBreak, Yaml.isEnd, Yaml.isFlow,
    Bool.and_eq_true, Bool.not_eq_true', Bool.or_eq_false_iff, beq_eq_false_iff_ne, bne_iff_ne]
  and_intros <;> exact other rfl

/-- Such names are names of anchors. -/
theorem Draft.Plain.named {draft : Draft} (h : draft.Plain) : draft.label.Named Yaml.IsName := by
  intro a ha
  obtain ⟨nonempty, fine⟩ := h.names a (List.mem_cons_of_mem _ ha)
  exact ⟨nonempty, fun c hc => isAnchorChar_of_isAlphanum (fine c hc)⟩

/-! ## Steps and runs -/

namespace Session

variable {s : Session} {a : Action} {actions : List Action} {draft : Draft}

theorem Adds.orderly {parent : NodeRef} {t : Tree} {data : NodeData} {new : Draft} (hs : s.config.Orderly P)
    (h : s.Adds draft parent t data new) (leaf : draft.isLeaf) (named : draft.label.Named P) :
    (s.config.mapTree parent.tree fun t => (t.graft parent.handle new).1).Orderly P := by
  have admitted := h.admitted
  have children := (Configuration.admittedBelow_ok admitted).1 leaf
  have fits : (Forest.ofRose new).Everywhere (Rose.Fits P) := by
    rw [← Rose.everywhere_iff_ofRose]
    refine ⟨⟨named.congr (Configuration.admittedBelow_names admitted), fun _ => children⟩, ?_⟩
    rw [children]
    exact Forest.everywhere_nil
  refine hs.mapTree fun t' ht' => (hs.tree ht').graftAll fits fun d hd => ?_
  cases ht'.symm.trans h.tree
  cases hd.symm.trans h.known
  exact (Configuration.admittedBelow_sanitized admitted).1

/-- **One step.** It keeps a configuration orderly. -/
theorem orderly_perform (hs : s.config.Orderly P)
    (plain : ∀ draft, a = .commit draft → draft.isLeaf ∧ draft.label.Named P) : (s.perform a).config.Orderly P := by
  have effect := effect_perform s a
  generalize (s.perform a).config = after at effect ⊢
  cases effect with
  | nothing => exact hs
  | added h => exact h.orderly hs (plain _ rfl).1 (plain _ rfl).2
  | edited h => exact hs.edited h.tree h.known h.admitted (plain _ rfl).1 (plain _ rfl).2 _
  | deleted => exact hs.deleted _ _ _ _

/-- **Orderly runs.** -/
theorem orderly_run (hs : s.config.Orderly P)
    (plain : ∀ draft, .commit draft ∈ actions → draft.isLeaf ∧ draft.label.Named P) :
    (s.run actions).config.Orderly P :=
  run_induction (P := fun s => s.config.Orderly P) hs fun _ _ inside hs =>
    orderly_perform hs fun draft same => plain draft (same ▸ inside)

/-- **Saved runs.** A session begins with the configuration of a text, and its drafts are plain. If what
it leaves is saved, and its texts are such as are read as they were written, then the file is loaded
again iff the keys of each object are distinct and the environments read as mappings. -/
theorem load_emit_run_iff {text out : String} (loaded : Yaml.load text = .ok s.config)
    (plain : ∀ draft, .commit draft ∈ actions → draft.Plain) (saved : Yaml.emit (s.run actions).config = .ok out)
    (legible : (s.run actions).config.Everywhere fun r => Yaml.Legible r.label) :
    (∃ c, Yaml.load out = .ok c) ↔ Yaml.Loadable (s.run actions).config := by
  refine Yaml.load_emit_iff saved (orderly_run (Yaml.orderly_load loaded) fun draft inside => ?_) legible
  exact ⟨(plain draft inside).leaf, (plain draft inside).named⟩

/-- The text of the configuration in which `prod` overrides a property beside one of its own. -/
def overriddenBesideText : String := "default:\n  a: 1\nenvironments:\n  prod:\n    a: 2\n    b: 3\n"

/-- The text that is saved after the renaming. -/
def renamedOntoText : String := "default:\n  b: 1\nenvironments:\n  prod:\n    b: 2\n    b: 3\n"

theorem load_overriddenBesideText : Yaml.load overriddenBesideText = .ok overriddenBeside.config := by
  decide +kernel

theorem emit_renameOnto : Yaml.emit (overriddenBeside.run renameOnto).config = .ok renamedOntoText := by
  decide +kernel

theorem load_renamedOntoText : Yaml.load renamedOntoText = .error (.duplicateKey "b" "prod") := by
  decide +kernel

theorem renameOnto_plain : ∀ draft, .commit draft ∈ renameOnto → draft.Plain := by
  intro draft inside
  rcases List.mem_cons.1 inside with same | inside
  · cases same
  · cases List.mem_singleton.1 inside
    exact ⟨rfl, rfl, List.forall_mem_singleton.2 ⟨by decide, List.all_eq_true.1 rfl⟩⟩

/-- The configuration that the renaming leaves is saved as a text that is not loaded, so it is not
loadable. -/
theorem load_emit_run_iff_renameOnto :
    Yaml.load overriddenBesideText = .ok overriddenBeside.config ∧
      (overriddenBeside.run renameOnto).config.Everywhere (fun r => Yaml.Legible r.label) ∧
      ¬Yaml.Loadable (overriddenBeside.run renameOnto).config := by
  have legible : (overriddenBeside.run renameOnto).config.Everywhere fun r => Yaml.Legible r.label := by
    decide +kernel
  refine ⟨load_overriddenBesideText, legible, fun loadable => ?_⟩
  obtain ⟨c, again⟩ :=
    (load_emit_run_iff load_overriddenBesideText renameOnto_plain emit_renameOnto legible).2 loadable
  rw [load_renamedOntoText] at again
  cases again

/-- `prod` is saved with two properties `b`, and the file is refused. -/
theorem saved_with_two_properties_of_one_key :
    Yaml.load overriddenBesideText = .ok overriddenBeside.config ∧
      (∀ draft, .commit draft ∈ renameOnto → draft.Plain) ∧
      ∃ out, Yaml.emit (overriddenBeside.run renameOnto).config = .ok out ∧ ∀ c, Yaml.load out ≠ .ok c := by
  refine ⟨load_overriddenBesideText, renameOnto_plain, renamedOntoText, emit_renameOnto, fun c again => ?_⟩
  rw [load_renamedOntoText] at again
  cases again

end Session

end LayeredConfig
