import LayeredConfig.Proofs.Session.Editing
import Mathlib.Data.List.Induction

/-!
# Runs of a session

A step of a session changes the configuration in one of three ways or not at all: a commit adds a
node (`Adds`) or edits one (`Edits`), a deletion takes one away (`Deletes`). `effect_perform` says
so for every action and every session; what a run keeps is what these three keep
(`run_induction`).
-/

namespace LayeredConfig.Session

/-- A step of the work with a session. -/
inductive Action where
  | compose (n : NodeRef) (editing : Bool)
  | commit (draft : Draft)
  | cancel
  | delete (n : NodeRef) (answer : Confirmation)
  | doDelete (n : NodeRef)
  | expand (n : NodeRef)
  | collapse (n : NodeRef)
  | refresh

/-- The session after a step, whether the step is refused or not. -/
def perform (s : Session) : Action → Session
  | .compose n editing => (s.compose n editing).2
  | .commit draft => (s.commit draft).2
  | .cancel => s.cancel
  | .delete n answer => (s.delete n answer).2
  | .doDelete n => (s.doDelete n).2
  | .expand n => s.expand n
  | .collapse n => s.collapse n
  | .refresh => s.refresh

/-- The session after a sequence of steps. -/
def run (s : Session) (actions : List Action) : Session := actions.foldl perform s

variable {s s' : Session} {draft new : Draft} {n parent : NodeRef} {t : Tree}
  {data live : NodeData} {above : Handle} {a : Action}

theorem run_append (s : Session) (before after : List Action) :
    s.run (before ++ after) = (s.run before).run after := List.foldl_append

theorem run_concat (s : Session) (before : List Action) (a : Action) :
    s.run (before ++ [a]) = (s.run before).perform a := run_append s before [a]

/-! ## What a step does to the configuration -/

/-- The session is adding below `parent`, a node of `t` with these data, and admits the draft as
`new`. -/
structure Adds (s : Session) (draft : Draft) (parent : NodeRef) (t : Tree) (data : NodeData)
    (new : Draft) : Prop where
  composing : ∃ p, s.state = .composing p ∧ p.editing = false ∧ p.node = parent
  tree : s.config.tree? parent.tree = some t
  known : t.data? parent.handle = some data
  admitted : Configuration.admittedBelow t parent.handle data (s.config.pathText parent) draft =
    .ok new

/-- The session is editing `n`, a node of `t` with the data `live`, and admits the draft as
`new`. -/
structure Edits (s : Session) (draft : Draft) (n : NodeRef) (t : Tree) (live : NodeData)
    (new : Draft) : Prop where
  composing : ∃ p, s.state = .composing p ∧ p.editing = true ∧ p.node = n
  tree : s.config.tree? n.tree = some t
  known : t.data? n.handle = some live
  admitted : Configuration.admittedEdit t n live draft = .ok new

/-- `n` is a node of `t` below `above`. -/
structure Deletes (s : Session) (n : NodeRef) (t : Tree) (data : NodeData) (above : Handle) :
    Prop where
  tree : s.config.tree? n.tree = some t
  known : t.data? n.handle = some data
  parent : t.parent? n.handle = some above

/-- What a step can do to the configuration. -/
inductive Effect (s : Session) : Action → Configuration → Prop
  | nothing (a : Action) : Effect s a s.config
  | added {draft : Draft} {parent : NodeRef} {t : Tree} {data : NodeData} {new : Draft}
    (h : s.Adds draft parent t data new) :
    Effect s (.commit draft) (s.config.mapTree parent.tree fun t => (t.graft parent.handle new).1)
  | edited {draft : Draft} {n : NodeRef} {t : Tree} {live : NodeData} {new : Draft}
    (h : s.Edits draft n t live new) :
    Effect s (.commit draft) (s.config.edited n live new s.markers)
  | deleted {a : Action} {n : NodeRef} {t : Tree} {data : NodeData} {above : Handle}
    (h : s.Deletes n t data above) (ha : a = .delete n .yes ∨ a = .doDelete n) :
    Effect s a (s.config.deleted n t data above)

/-- What was composed is written into the configuration, whatever becomes of the view. -/
theorem config_commit {p : Composition} (composing : s.state = .composing p)
    {r : Except EditError NodeRef} {c' : Configuration}
    (hc : Editing.apply (if p.editing then Configuration.edit p.node draft s.markers
      else Configuration.addBelow p.node draft) s.config = (r, c')) :
    (s.commit draft).2.config = c' := by
  rw [commit_of_composing composing draft hc]
  cases r <;> rfl

theorem Adds.config_perform (h : s.Adds draft parent t data new) :
    (s.perform (.commit draft)).config =
      s.config.mapTree parent.tree fun t => (t.graft parent.handle new).1 := by
  obtain ⟨p, composing, adding, rfl⟩ := h.composing
  refine config_commit composing (r := .ok ⟨p.node.tree, t.next⟩) ?_
  rw [adding]
  exact Configuration.addBelow_of_admitted h.tree h.known h.admitted

theorem Edits.config_perform (h : s.Edits draft n t live new) :
    (s.perform (.commit draft)).config = s.config.edited n live new s.markers := by
  obtain ⟨p, composing, editing, rfl⟩ := h.composing
  refine config_commit composing (r := .ok p.node) ?_
  rw [editing]
  exact Configuration.edit_of_admitted h.tree h.known h.admitted

theorem Deletes.config_perform {a : Action} (h : s.Deletes n t data above)
    (ha : a = .delete n .yes ∨ a = .doDelete n) :
    (s.perform a).config = s.config.deleted n t data above := by
  have deleted : s.doDelete n = (.ok (), { s with config := s.config.deleted n t data above }) := by
    unfold doDelete
    rw [Configuration.delete_of_parent h.tree h.known h.parent]
  rcases ha with rfl | rfl
  · show (s.delete n .yes).2.config = _
    unfold delete
    dsimp only
    rw [deleted]
    rfl
  · show (s.doDelete n).2.config = _
    rw [deleted]

theorem effect_commit (s : Session) (draft : Draft) :
    s.Effect (.commit draft) (s.commit draft).2.config := by
  cases state : s.state with
  | idle =>
    have : (s.commit draft).2.config = s.config := by
      unfold commit
      rw [state]
    rw [this]
    exact .nothing _
  | composing p =>
    generalize run : Editing.apply (if p.editing then Configuration.edit p.node draft s.markers
      else Configuration.addBelow p.node draft) s.config = result
    obtain ⟨r, c'⟩ := result
    rw [config_commit state run]
    cases editing : p.editing with
    | true =>
      rw [editing] at run
      obtain ⟨_, -, rfl⟩ | ⟨t, live, new, tree, data, admitted, -, rfl⟩ :=
        Configuration.edit_cases run
      · exact .nothing _
      · exact .edited ⟨⟨p, state, editing, rfl⟩, tree, data, admitted⟩
    | false =>
      rw [editing] at run
      obtain ⟨_, -, rfl⟩ | ⟨t, data, new, tree, hdata, admitted, -, rfl⟩ :=
        Configuration.addBelow_cases run
      · exact .nothing _
      · exact .added ⟨⟨p, state, editing, rfl⟩, tree, hdata, admitted⟩

theorem effect_doDelete (s : Session) (n : NodeRef)
    (ha : a = .delete n .yes ∨ a = .doDelete n) : s.Effect a (s.doDelete n).2.config := by
  unfold doDelete
  generalize run : Editing.apply (Configuration.delete n) s.config = result
  obtain ⟨r, c'⟩ := result
  obtain ⟨_, -, rfl⟩ | ⟨t, data, above, tree, hdata, parent, -, rfl⟩ :=
    Configuration.delete_cases run
  · exact .nothing _
  · exact .deleted ⟨tree, hdata, parent⟩ ha

/-- A step adds a node, edits one, deletes one, or leaves the configuration as it is. -/
theorem effect_perform (s : Session) (a : Action) : s.Effect a (s.perform a).config := by
  cases a with
  | compose n editing =>
    have : (s.perform (.compose n editing)).config = s.config := by
      show (s.compose n editing).2.config = s.config
      unfold compose
      split <;> rfl
    rw [this]
    exact .nothing _
  | commit draft => exact effect_commit s draft
  | delete n answer =>
    cases answer with
    | yes =>
      have : (s.perform (.delete n .yes)).config = (s.doDelete n).2.config := by
        show (s.delete n .yes).2.config = (s.doDelete n).2.config
        unfold delete
        dsimp only
        split
        · rename_i deleted
          rw [deleted]
          rfl
        · rename_i refused
          rw [refused]
      rw [this]
      exact effect_doDelete s n (Or.inl rfl)
    | no => exact .nothing _
    | failed => exact .nothing _
  | doDelete n => exact effect_doDelete s n (Or.inr rfl)
  | expand n =>
    have : (s.perform (.expand n)).config = s.config := by
      show (s.expand n).config = s.config
      unfold expand
      split <;> rfl
    rw [this]
    exact .nothing _
  | cancel => exact .nothing _
  | collapse n => exact .nothing _
  | refresh => exact .nothing _

/-- What every step of a run keeps, the run keeps. -/
theorem run_induction {P : Session → Prop} {actions : List Action} (start : P s)
    (step : ∀ s, ∀ a ∈ actions, P s → P (s.perform a)) : P (s.run actions) := by
  induction actions generalizing s with
  | nil => exact start
  | cons a actions ih =>
    exact ih (step s a List.mem_cons_self start) fun s b hb => step s b (List.mem_cons_of_mem _ hb)

/-- What each step of a run keeps unless it is one of some steps holds all along the run iff none of
its steps is one of these. -/
theorem forall_run_iff {P : Session → Prop} {Breaks : Session → Action → Prop}
    {actions : List Action} (start : P s)
    (step : ∀ before a, before ++ [a] <+: actions → P (s.run before) →
      (P ((s.run before).perform a) ↔ ¬Breaks (s.run before) a)) :
    (∀ before, before <+: actions → P (s.run before)) ↔
      ∀ before a, before ++ [a] <+: actions → ¬Breaks (s.run before) a := by
  constructor
  · intro all before a inside
    have after := all _ inside
    rw [run_concat] at after
    exact (step before a inside (all before ((List.prefix_append _ _).trans inside))).1 after
  · intro fine before
    induction before using List.reverseRecOn with
    | nil => exact fun _ => start
    | append_singleton before a ih =>
      intro inside
      rw [run_concat]
      exact (step before a inside (ih ((List.prefix_append _ _).trans inside))).2
        (fine before a inside)

end LayeredConfig.Session
