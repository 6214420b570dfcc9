import LayeredConfig.Proofs.Tree.Handles
import LayeredConfig.Session

/-!
# What an edit of a session does

An edit looks, changes, and may look again after it has changed something. `edit_cases`,
`addBelow_cases` and `delete_cases` say all that a run can do: it is refused and the configuration
is as it was, or everything that it announces is done. A look that comes after a change always
finds something: no change takes a tree away, and a draft is added below a node that is there.

Main statement: `Session.unchanged_of_refused`.
-/

namespace LayeredConfig

/-! ## Runs -/

namespace Editing

variable {α β : Type} {c c' : Configuration}

@[simp] theorem apply_pure (a : α) (c : Configuration) :
    Editing.apply (pure a) c = (.ok a, c) := rfl

@[simp] theorem apply_throw (e : EditError) (c : Configuration) :
    Editing.apply (throw e : Editing α) c = (.error e, c) := rfl

theorem apply_get_bind (f : Configuration → Editing β) (c : Configuration) :
    Editing.apply (get >>= f) c = (f c).apply c := rfl

theorem apply_modify_bind (g : Configuration → Configuration) (f : PUnit → Editing β)
    (c : Configuration) : Editing.apply (modify g >>= f) c = (f ⟨⟩).apply (g c) := rfl

theorem apply_modify (g : Configuration → Configuration) (c : Configuration) :
    Editing.apply (modify g) c = (.ok ⟨⟩, g c) := rfl

theorem apply_setTree_bind (n : NodeRef) (t : Tree) (f : Unit → Editing β) (c : Configuration) :
    Editing.apply (setTree n t >>= f) c = (f ()).apply (c.mapTree n.tree fun _ => t) := rfl

theorem apply_ok_bind (a : α) (f : α → Editing β) (c : Configuration) :
    Editing.apply (liftM (.ok a : Except EditError α) >>= f) c = (f a).apply c := rfl

theorem apply_find_bind {look : Configuration → Option α} {a : α} (h : look c = some a)
    (missing : EditError) (f : α → Editing β) :
    Editing.apply (find missing look >>= f) c = (f a).apply c := by
  unfold find
  rw [bind_assoc, apply_get_bind, h]
  rfl

variable {r : Except EditError β}

/-- A look finds something, or the edit ends there. -/
theorem find_bind_cases {missing : EditError} {look : Configuration → Option α}
    {f : α → Editing β} (h : Editing.apply (find missing look >>= f) c = (r, c')) :
    (r = .error missing ∧ c' = c) ∨ ∃ a, look c = some a ∧ (f a).apply c = (r, c') := by
  cases found : look c with
  | none =>
    unfold find at h
    rw [bind_assoc, apply_get_bind, found] at h
    cases h
    exact Or.inl ⟨rfl, rfl⟩
  | some a =>
    rw [apply_find_bind found] at h
    exact Or.inr ⟨a, rfl, h⟩

/-- A check passes, or the edit ends there. -/
theorem check_bind_cases {x : Except EditError α} {f : α → Editing β}
    (h : Editing.apply (liftM x >>= f) c = (r, c')) :
    (∃ e, r = .error e ∧ c' = c) ∨ ∃ a, x = .ok a ∧ (f a).apply c = (r, c') := by
  cases x with
  | error e =>
    cases h
    exact Or.inl ⟨e, rfl, rfl⟩
  | ok a => exact Or.inr ⟨a, rfl, h⟩

end Editing

namespace Configuration

variable {c c' : Configuration} {n : NodeRef} {t : Tree} {live : NodeData} {m : Markers}

/-! ## What stays -/

theorem mapTree_of_tree? {kind : TreeKind} (h : c.tree? kind = some t) (f : Tree → Tree) :
    c.mapTree kind (fun _ => f t) = c.mapTree kind f := by
  cases kind with
  | default => cases h; rfl
  | environments => cases h; rfl
  | detached => rfl

/-- A tree that one configuration has is there in every configuration. -/
theorem exists_tree? {kind : TreeKind} (h : c.tree? kind = some t) (c' : Configuration) :
    ∃ t', c'.tree? kind = some t' := by
  cases kind with
  | default => exact ⟨_, rfl⟩
  | environments => exact ⟨_, rfl⟩
  | detached => cases h

theorem data?_of_tree? (h : c.tree? n.tree = some t) : c.data? n = t.data? n.handle := by
  rw [data?, h, Option.bind_some]

/-! ## What an edit does -/

/-- The configuration with a node edited, and everything that follows from it. -/
def edited (c : Configuration) (n : NodeRef) (live : NodeData) (new : Draft) (m : Markers) :
    Configuration :=
  ((c.alignEdit n live new.label m).mapTree n.tree (writeDraft · n.handle new)).alignAnchor
    live.anchor new.label.anchor

/-- The edit after its draft is admitted: the second look at the tree finds it. -/
theorem edit_of_admitted {draft new : Draft} (ht : c.tree? n.tree = some t)
    (hl : t.data? n.handle = some live) (ha : admittedEdit t n live draft = .ok new) :
    (edit n draft m).apply c = (.ok n, c.edited n live new m) := by
  have hlive : c.data? n = some live := (data?_of_tree? ht).trans hl
  obtain ⟨aligned, haligned⟩ := exists_tree? ht (c.alignEdit n live new.label m)
  unfold edit
  rw [Editing.apply_get_bind, Editing.apply_find_bind ht, Editing.apply_find_bind hlive, ha,
    Editing.apply_ok_bind, Editing.apply_modify_bind, Editing.apply_find_bind haligned,
    Editing.apply_setTree_bind, Editing.apply_modify_bind, Editing.apply_pure,
    mapTree_of_tree? haligned (writeDraft · n.handle new)]
  rfl

/-- An edit is refused, or the draft that is admitted is written. -/
theorem edit_cases {draft : Draft} {r : Except EditError NodeRef}
    (h : (edit n draft m).apply c = (r, c')) :
    (∃ e, r = .error e ∧ c' = c) ∨
      ∃ t live new, c.tree? n.tree = some t ∧ t.data? n.handle = some live ∧
        admittedEdit t n live draft = .ok new ∧ r = .ok n ∧ c' = c.edited n live new m := by
  have whole := h
  unfold edit at h
  rw [Editing.apply_get_bind] at h
  obtain ⟨rfl, rfl⟩ | ⟨t, ht, h⟩ := Editing.find_bind_cases h
  · exact Or.inl ⟨_, rfl, rfl⟩
  obtain ⟨rfl, rfl⟩ | ⟨live, hl, h⟩ := Editing.find_bind_cases h
  · exact Or.inl ⟨_, rfl, rfl⟩
  obtain ⟨e, rfl, rfl⟩ | ⟨new, ha, -⟩ := Editing.check_bind_cases h
  · exact Or.inl ⟨e, rfl, rfl⟩
  rw [data?_of_tree? ht] at hl
  rw [edit_of_admitted ht hl ha] at whole
  cases whole
  exact Or.inr ⟨t, live, new, ht, hl, ha, rfl, rfl⟩

end Configuration

namespace Configuration

variable {c c' : Configuration} {n parent : NodeRef} {m : Markers}

/-- The addition after its draft is admitted: the node is there, so the last look finds a handle. -/
theorem addBelow_of_admitted {t : Tree} {data : NodeData} {draft new : Draft}
    (ht : c.tree? parent.tree = some t) (hd : t.data? parent.handle = some data)
    (ha : admittedBelow t parent.handle data (c.pathText parent) draft = .ok new) :
    (addBelow parent draft).apply c =
      (.ok ⟨parent.tree, t.next⟩, c.mapTree parent.tree fun t => (t.graft parent.handle new).1) := by
  have hdata : c.data? parent = some data := (data?_of_tree? ht).trans hd
  unfold addBelow
  rw [Editing.apply_get_bind, Editing.apply_find_bind ht, Editing.apply_find_bind hdata, ha,
    Editing.apply_ok_bind, Tree.graft_of_contains (Tree.contains_of_data? hd) new]
  dsimp only
  rw [Editing.apply_setTree_bind, Editing.apply_pure,
    mapTree_of_tree? ht fun t => (t.graft parent.handle new).1]

/-- Nothing is added, or the draft that is admitted, under the next handle. -/
theorem addBelow_cases {draft : Draft} {r : Except EditError NodeRef}
    (h : (addBelow parent draft).apply c = (r, c')) :
    (∃ e, r = .error e ∧ c' = c) ∨
      ∃ t data new, c.tree? parent.tree = some t ∧ t.data? parent.handle = some data ∧
        admittedBelow t parent.handle data (c.pathText parent) draft = .ok new ∧
        r = .ok ⟨parent.tree, t.next⟩ ∧
        c' = c.mapTree parent.tree fun t => (t.graft parent.handle new).1 := by
  have whole := h
  unfold addBelow at h
  rw [Editing.apply_get_bind] at h
  obtain ⟨rfl, rfl⟩ | ⟨t, ht, h⟩ := Editing.find_bind_cases h
  · exact Or.inl ⟨_, rfl, rfl⟩
  obtain ⟨rfl, rfl⟩ | ⟨data, hd, h⟩ := Editing.find_bind_cases h
  · exact Or.inl ⟨_, rfl, rfl⟩
  obtain ⟨e, rfl, rfl⟩ | ⟨new, ha, -⟩ := Editing.check_bind_cases h
  · exact Or.inl ⟨e, rfl, rfl⟩
  rw [data?_of_tree? ht] at hd
  rw [addBelow_of_admitted ht hd ha] at whole
  cases whole
  exact Or.inr ⟨t, data, new, ht, hd, ha, rfl, rfl⟩

/-- The configuration without a node, its overrides and the aliases of its anchor. -/
def deleted (c : Configuration) (n : NodeRef) (t : Tree) (data : NodeData) (parent : Handle) :
    Configuration :=
  let c := c.mapTree n.tree fun t => (t.remove n.handle).1
  let c := match data.anchor with
    | some anchor => (c.alignAnchorRemoval anchor).1
    | none => c
  if n.tree = .default ∧ !t.isArray parent then (c.alignDeletion (t.alignedPath n.handle)).1 else c

/-- The deletion of a node that has a parent. -/
theorem delete_of_parent {t : Tree} {data : NodeData} {above : Handle}
    (ht : c.tree? n.tree = some t) (hd : t.data? n.handle = some data)
    (hp : t.parent? n.handle = some above) :
    (delete n).apply c = (.ok (), c.deleted n t data above) := by
  have hdata : c.data? n = some data := (data?_of_tree? ht).trans hd
  have hparent : (fun _ : Configuration => t.parent? n.handle) c = some above := hp
  unfold delete
  rw [Editing.apply_get_bind, Editing.apply_find_bind ht, Editing.apply_find_bind hdata,
    Editing.apply_find_bind hparent, Editing.apply_setTree_bind, Editing.apply_modify_bind,
    Editing.apply_modify, mapTree_of_tree? ht fun t => (t.remove n.handle).1]
  rfl

/-- A deletion is refused, or the node is deleted with everything that goes with it. -/
theorem delete_cases {r : Except EditError Unit} (h : (delete n).apply c = (r, c')) :
    (∃ e, r = .error e ∧ c' = c) ∨
      ∃ t data parent, c.tree? n.tree = some t ∧ t.data? n.handle = some data ∧
        t.parent? n.handle = some parent ∧ r = .ok () ∧ c' = c.deleted n t data parent := by
  unfold delete at h
  rw [Editing.apply_get_bind] at h
  obtain ⟨rfl, rfl⟩ | ⟨t, ht, h⟩ := Editing.find_bind_cases h
  · exact Or.inl ⟨_, rfl, rfl⟩
  obtain ⟨rfl, rfl⟩ | ⟨data, hd, h⟩ := Editing.find_bind_cases h
  · exact Or.inl ⟨_, rfl, rfl⟩
  obtain ⟨rfl, rfl⟩ | ⟨parent, hp, h⟩ := Editing.find_bind_cases h
  · exact Or.inl ⟨_, rfl, rfl⟩
  rw [data?_of_tree? ht] at hd
  rw [Editing.apply_setTree_bind, Editing.apply_modify_bind, Editing.apply_modify,
    mapTree_of_tree? ht fun t => (t.remove n.handle).1] at h
  cases h
  exact Or.inr ⟨t, data, parent, ht, hd, hp, rfl, rfl⟩

end Configuration

/-! ## Refused steps of a session -/

namespace Session

variable {s s' : Session}

theorem commit_of_composing {p : Composition} (h : s.state = .composing p) (draft : Draft)
    {r : Except EditError NodeRef} {c' : Configuration}
    (hc : Editing.apply (if p.editing then Configuration.edit p.node draft s.markers
      else Configuration.addBelow p.node draft) s.config = (r, c')) :
    s.commit draft =
      match r with
      | .error e => (.error e, { s with config := c' })
      | .ok node => (.ok node, ({ s with config := c' }.mark p.node |>.mark node).refresh.cancel) := by
  unfold commit
  rw [h]
  simp only [hc]
  cases r <;> rfl

theorem commit_error {draft : Draft} {e : EditError} (h : s.commit draft = (.error e, s')) :
    s' = s := by
  cases state : s.state with
  | idle =>
    unfold commit at h
    rw [state] at h
    cases h
    rfl
  | composing p =>
    generalize run : Editing.apply (if p.editing then Configuration.edit p.node draft s.markers
      else Configuration.addBelow p.node draft) s.config = result at h
    obtain ⟨r, c'⟩ := result
    rw [commit_of_composing state draft run] at h
    cases r with
    | ok node => cases h
    | error e =>
      cases h
      have same : c' = s.config := by
        split at run
        · obtain ⟨-, -, same⟩ | ⟨_, _, _, -, -, -, ok, -⟩ := Configuration.edit_cases run
          · exact same
          · cases ok
        · obtain ⟨-, -, same⟩ | ⟨_, _, _, -, -, -, ok, -⟩ := Configuration.addBelow_cases run
          · exact same
          · cases ok
      rw [same]

theorem doDelete_error {n : NodeRef} {e : EditError} (h : s.doDelete n = (.error e, s')) :
    s' = s := by
  unfold doDelete at h
  generalize run : Editing.apply (Configuration.delete n) s.config = result at h
  obtain ⟨r, c'⟩ := result
  cases h
  obtain ⟨-, -, rfl⟩ | ⟨_, _, _, -, -, -, ok, -⟩ := Configuration.delete_cases run
  · rfl
  · cases ok

theorem delete_refused {n : NodeRef} {answer : Confirmation} {r : Except ServiceError Bool}
    (h : s.delete n answer = (r, s')) (hr : r ≠ .ok true) : s' = s := by
  unfold delete at h
  cases answer with
  | failed => cases h; rfl
  | no => cases h; rfl
  | yes =>
    simp only at h
    split at h
    · cases h
      exact absurd rfl hr
    · rename_i e after failed
      cases h
      exact doDelete_error failed

/-- **Refused steps change nothing.** Whatever a session is composing and whatever became of the
node since, a step that is refused, and a deletion that is declined, leave both trees, the state of
the session and the nodes that are shown expanded as they were. -/
theorem unchanged_of_refused (s : Session) (n : NodeRef) (editing : Bool) (draft : Draft)
    (answer : Confirmation) :
    (∀ e s', s.compose n editing = (.error e, s') → s' = s) ∧
      (∀ e s', s.commit draft = (.error e, s') → s' = s) ∧
      (∀ e s', s.doDelete n = (.error e, s') → s' = s) ∧
      ∀ r s', s.delete n answer = (r, s') → r ≠ .ok true → s' = s := by
  refine ⟨fun e s' h => ?_, fun _ _ => commit_error, fun _ _ => doDelete_error,
    fun _ _ => delete_refused⟩
  unfold compose at h
  split at h
  · cases h
  · cases h
    rfl

/-- A session that edits the first of two properties. -/
def editingFirst : Session :=
  let config : Configuration :=
    { Configuration.empty with
      default := .ofDrafts .default <|
        .cons (.ofScalar "host" (.string "local")) .nil <|
        .cons (.ofScalar "port" (.number (.int 5432))) .nil .nil }
  (({ config, markers := .standard, known := [] } : Session).compose ⟨.default, 1⟩ true).2

theorem unchanged_of_refused_takenKey :
    ∃ e s', editingFirst.commit (.scalar "port" (.string "remote")) = (.error e, s') ∧
      s' = editingFirst := by
  have refused : (editingFirst.commit (.scalar "port" (.string "remote"))).1 =
      .error (.duplicateKey "port" "default") := by rfl
  have step : editingFirst.commit (.scalar "port" (.string "remote")) =
      (.error (.duplicateKey "port" "default"),
        (editingFirst.commit (.scalar "port" (.string "remote"))).2) := Prod.ext refused rfl
  exact ⟨_, _, step, (unchanged_of_refused editingFirst default true _ .yes).2.1 _ _ step⟩

end Session

end LayeredConfig
