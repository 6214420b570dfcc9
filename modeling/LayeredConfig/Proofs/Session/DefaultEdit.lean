import LayeredConfig.Proofs.Session.Cascade
import LayeredConfig.Proofs.Session.ViewState

/-!
# What an edit of a default node does to the environments

The environments follow a default node in one of two ways, or not at all. Where its type changes,
what its path leads to in each environment is taken out; where it keeps its type and gets a new key,
the nodes found get that key, and the texts of all environments refer to it by that key
(`Tree.renamed`). The path and the nodes found are those before the edit.

Main statement: `Session.commit_default_exact`.
-/

namespace LayeredConfig

namespace Tree

variable {t : Tree} {h : Handle}

/-- The tree with the nodes `found` under the key `new`, and with the references to `old` in the
texts of its childless string nodes turned into references to `new`. -/
def renamed (t : Tree) (found : List Handle) (m : Markers) (old new : String) : Tree :=
  { t with top := t.top.map fun e => { e with data :=
      { t.referring m old new e.handle e.data with
        key := if e.handle ∈ found then new else e.data.key } } }

/-- The overrides under their new key, then the references. -/
theorem Sound.renameReferences_alignOverrides (ht : t.Sound) (path : List String) (m : Markers)
    (old new : String) :
    let keyed := (t.alignOverrides path fun t o => t.modify o fun d => { d with key := new }).1
    (keyed.renameReferences keyed.root m old new).1 = t.renamed (t.overrides path) m old new := by
  intro keyed
  have mapped : keyed = { t with top := t.top.map (keyedAs (t.overrides path) new) } :=
    foldl_modify (f := fun d => { d with key := new }) (Or.inr fun _ => rfl) t
  have sound : keyed.Sound := mapped ▸ ht.map (handle_keyedAs _ _)
  rw [sound.renameReferences_root]
  have leaves : ∀ x, keyed.isLeaf x = t.isLeaf x := fun x => by
    rw [mapped, isLeaf_map (handle_keyedAs _ _)]
  rw [renamed, mapped]
  dsimp only
  rw [Rose.map_map]
  refine congrArg (fun g => ({ t with top := t.top.map g } : Tree)) (funext fun e => ?_)
  rw [← mapped, Function.comp_apply, handle_keyedAs]
  refine congrArg (Entry.mk e.handle) ?_
  unfold referring
  rw [leaves, type_keyedAs]
  unfold keyedAs
  by_cases found : e.handle ∈ t.overrides path
  · simp only [found, if_true]
    split <;> rfl
  · simp only [found, if_false]
    split <;> rfl

end Tree

namespace Configuration

variable {c : Configuration} {n : NodeRef} {d : Handle} {live new : NodeData} {draft : Draft}
  {m : Markers}

/-- A draft written over a node is the node's data. -/
theorem data?_writeDraft_self {t : Tree} {h : Handle} (there : t.contains h) (draft : Draft) :
    (writeDraft t h draft).data? h = some draft.label := by
  have written : (t.modify h fun _ => draft.label).data? h = some draft.label := by
    obtain ⟨r, hr⟩ := Option.isSome_iff_exists.1 there
    rw [Tree.data?_modify, Tree.data?, hr]
    simp
  unfold writeDraft
  dsimp only
  split
  · exact (Tree.data?_adjust_self _ h _).trans written
  · split
    · exact written
    · exact ((Tree.data?_graftAll_self _ h _).trans (Tree.data?_adjust_self _ h _)).trans written

theorem alignAnchor_self (c : Configuration) (anchor : Option String) :
    c.alignAnchor anchor anchor = c := by
  cases anchor with
  | none => rfl
  | some a => exact if_neg (not_not.2 rfl)

/-- The environments before a draft is written over a default node. -/
theorem environments_alignEdit (hc : c.Sound) (hd : c.default.data? d = some live)
    (below : d ≠ c.default.root) (new : NodeData) (m : Markers) :
    (new.type ≠ live.type →
        (c.alignEdit ⟨.default, d⟩ live new m).environments = c.environments.takeOut (c.found d)) ∧
      (new.type = live.type → new.key ≠ live.key →
        (c.alignEdit ⟨.default, d⟩ live new m).environments =
          c.environments.renamed (c.found d) m live.key new.key) ∧
      (new.type = live.type → new.key = live.key → c.alignEdit ⟨.default, d⟩ live new m = c) := by
  obtain ⟨p, hp⟩ := hc.1.exists_parent (Tree.contains_iff.1 (Tree.contains_of_data? hd)) below
  have inside : (⟨.default, d⟩ : NodeRef).tree = .default ∧ (c.default.parent? d).isSome :=
    ⟨rfl, by rw [hp]; rfl⟩
  unfold alignEdit
  rw [if_pos inside]
  refine ⟨fun type => ?_, fun type key => ?_, fun type key => ?_⟩
  · rw [if_pos (Ne.symm type)]
    show (c.environments.removeOverrides (c.default.alignedPath d)).1 = _
    rw [hc.2.removeOverrides_eq_takeOut, overrides_eq_found hc hp]
  · rw [if_neg (not_not.2 type.symm), if_pos (Ne.symm key)]
    unfold alignKeyRename
    rw [Tree.key?, hd, Option.map_some, ← overrides_eq_found hc hp]
    exact hc.2.renameReferences_alignOverrides _ m live.key new.key
  · rw [if_neg (not_not.2 type.symm), if_neg (not_not.2 key.symm)]

/-- An edit that keeps the anchor writes the draft and aligns the environments. -/
theorem edited_of_kept_anchor (c : Configuration) (n : NodeRef) (m : Markers) {new : Draft}
    (same : new.label.anchor = live.anchor) :
    c.edited n live new m =
      (c.alignEdit n live new.label m).mapTree n.tree (writeDraft · n.handle new) := by
  rw [edited, same, alignAnchor_self]

/-- A default node that is edited has the data of the draft. -/
theorem data?_edited {new : Draft} (hd : c.default.data? d = some live)
    (same : new.label.anchor = live.anchor) (m : Markers) :
    (c.edited ⟨.default, d⟩ live new m).default.data? d = some new.label := by
  have inside : c.contains ⟨.default, d⟩ := contains_iff.2
    ⟨_, rfl, Tree.contains_iff.1 (Tree.contains_of_data? hd)⟩
  obtain ⟨u, hu, still⟩ := contains_iff.1 (contains_alignEdit inside live new.label m)
  cases hu
  rw [edited_of_kept_anchor c _ m same]
  exact data?_writeDraft_self (Tree.contains_iff.2 still) new

/-- What a draft for a default node below the root becomes when it is admitted. -/
theorem admittedEdit_default {t : Tree} {p : Handle} (hp : t.parent? d = some p) {new : Draft}
    (ha : admittedEdit t ⟨.default, d⟩ live draft = .ok new) :
    new.label.type = draft.label.type ∧
      new.label.key = (if t.isItem d then live.key else draft.label.key) := by
  unfold admittedEdit at ha
  dsimp only at ha
  rw [hp] at ha
  obtain ⟨-, ha⟩ := Outcome.check_eq_ok.1 ha
  have type := Draft.sanitized_type ha
  have key := Draft.sanitized_key ha
  simp only [Option.isNone_some, Bool.false_eq_true, false_or, ne_eq, not_true, if_false] at type key
  exact ⟨type, key⟩

end Configuration

namespace Session

variable {s s' : Session} {p : Composition} {draft : Draft} {n : NodeRef} {d : Handle}
  {live : NodeData}

/-- A commit of an edit that succeeds writes the draft that is admitted. -/
theorem exists_edits_of_commit (composing : s.state = .composing p) (editing : p.editing = true)
    (ok : s.commit draft = (.ok n, s')) :
    ∃ t live new, s.Edits draft p.node t live new ∧
      s'.config = s.config.edited p.node live new s.markers := by
  generalize run : Editing.apply (if p.editing then Configuration.edit p.node draft s.markers
    else Configuration.addBelow p.node draft) s.config = result
  obtain ⟨r, c'⟩ := result
  have after := config_commit composing run
  have done := commit_of_composing composing draft run
  rw [editing] at run
  obtain ⟨e, rfl, rfl⟩ | ⟨t, live, new, tree, known, admitted, rfl, rfl⟩ :=
    Configuration.edit_cases run
  · rw [ok] at done
    cases done
  · rw [ok] at after
    exact ⟨t, live, new, ⟨⟨p, composing, editing, rfl⟩, tree, known, admitted⟩, after⟩

/-- **An edit of a default node reaches the environments as announced.** The node is not the root and
keeps its anchor. Where its type changes, the nodes found at its path are taken out of the
environments with what is below them, and what is left stays as it was. Where it keeps its type and
its key changes, the nodes found get the new key and the texts of childless string nodes refer to it
by the new key, and nothing else changes. Where it keeps both, no environment changes. -/
theorem commit_default_exact (hs : s.config.Sound) (composing : s.state = .composing p)
    (editing : p.editing = true) (node : p.node = ⟨.default, d⟩)
    (hd : s.config.default.data? d = some live) (below : d ≠ s.config.default.root)
    (anchor : draft.label.anchor = live.anchor) (ok : s.commit draft = (.ok n, s')) :
    let envs := s.config.environments
    let found := s.config.found d
    ∃ after, s'.config.default.data? d = some after ∧ after.type = draft.label.type ∧
      after.key = (if s.config.default.isItem d then live.key else draft.label.key) ∧
      (after.type ≠ live.type → s'.config.environments = envs.takeOut found ∧
        envs.TakenOut found id s'.config.environments) ∧
      (after.type = live.type → after.key ≠ live.key →
        s'.config.environments = envs.renamed found s.markers live.key after.key) ∧
      (after.type = live.type → after.key = live.key → s'.config.environments = envs) := by
  intro envs found
  obtain ⟨t, live', new, edits, after⟩ := exists_edits_of_commit composing editing ok
  rw [node] at edits after
  obtain ⟨-, tree, known, admitted⟩ := edits
  cases tree
  cases hd.symm.trans known
  obtain ⟨above, hp⟩ :=
    hs.1.exists_parent (Tree.contains_iff.1 (Tree.contains_of_data? hd)) below
  obtain ⟨type, key⟩ := Configuration.admittedEdit_default hp admitted
  have same : new.label.anchor = live.anchor :=
    (congrArg Prod.fst (Configuration.admittedEdit_names admitted)).trans anchor
  obtain ⟨retyped, renamed, kept⟩ :=
    Configuration.environments_alignEdit hs hd below new.label s.markers
  have environments : s'.config.environments =
      (s.config.alignEdit ⟨.default, d⟩ live new.label s.markers).environments := by
    rw [after, Configuration.edited_of_kept_anchor _ _ _ same]
    rfl
  refine ⟨new.label, ?_, type, key, fun changes => ?_, fun keeps changes => ?_,
    fun keeps keeps' => ?_⟩
  · rw [after]
    exact Configuration.data?_edited hd same s.markers
  · rw [environments, retyped changes]
    exact ⟨rfl, hs.2.takenOut (Configuration.root_not_mem_found hs hp)⟩
  · exact environments.trans (renamed keeps changes)
  · rw [environments, kept keeps keeps']

/-- A host that an environment overrides and refers to is being edited. -/
def editingHost : Session :=
  ((overriding [.scalar "host" (.string "local"), .scalar "port" (.number (.int 80))]
    [.scalar "host" (.string "remote"), .scalar "url" (.string "$\x7bhost\x7d:$\x7bport\x7d")]).compose
      ⟨.default, 1⟩ true).2

theorem commit_default_exact_host :
    let draft := Draft.scalar "server" (.string "local")
    let s' := (editingHost.commit draft).2
    editingHost.commit draft = (.ok ⟨.default, 1⟩, s') ∧ editingHost.config.found 1 = [2] ∧
      ∃ after, s'.config.default.data? 1 = some after ∧ after.type = .string ∧
        after.key = "server" ∧
        s'.config.environments =
          editingHost.config.environments.renamed [2] editingHost.markers "host" "server" := by
  intro draft s'
  have ok : editingHost.commit draft = (.ok ⟨.default, 1⟩, s') := Prod.ext (by decide +kernel) rfl
  have found : editingHost.config.found 1 = [2] := by decide +kernel
  have sound : editingHost.config.Sound := by decide +kernel
  have live : editingHost.config.default.data? 1 = some (.ofScalar "host" (.string "local")) := rfl
  obtain ⟨after, known, type, key, -, renamed, -⟩ :=
    commit_default_exact sound (p := _) rfl rfl rfl live (by decide) rfl ok
  rw [if_neg (by decide +kernel)] at key
  refine ⟨ok, found, after, known, type, key, ?_⟩
  rw [← found, renamed type (by rw [key]; decide), key]
  rfl

end Session

end LayeredConfig
