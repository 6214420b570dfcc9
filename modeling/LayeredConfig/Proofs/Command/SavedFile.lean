import LayeredConfig.Command.Run
import LayeredConfig.Proofs.Command.HostFiles
import LayeredConfig.Proofs.Session.Property

/-!
# The file that a command changes

A command that adds, edits or deletes loads the configuration file, changes the configuration once and
saves it. Everything else that can fail comes before the one write: whatever a command reads, asks or
prints leaves all files alone (`Keeps`), and `save_cases` says all that saving does. So a command that
fails leaves the files as they were, unless it is the write that fails, and one that succeeds leaves
the document of the changed configuration in the file (`Invocation.file_after`).
-/

namespace LayeredConfig

variable {σ α β : Type} {contents : σ → String → Option String}

namespace Command

/-! ## Pieces of work -/

/-- The result of a piece of work, and the world after it. -/
def outcome (w : Work (StateM σ) α) (s : σ) : Except CommandError α × σ := (ExceptT.run w).run s

section

variable {s s' : σ} {r : Except CommandError β} {w : Work (StateM σ) α} {f : α → Work (StateM σ) β}

/-- The first piece fails and the second is not reached, or the second goes on where the first ends. -/
theorem bind_cases (ran : outcome (w >>= f) s = (r, s')) :
    (∃ e, outcome w s = (.error e, s') ∧ r = .error e) ∨
      ∃ a t, outcome w s = (.ok a, t) ∧ outcome (f a) t = (r, s') := by
  have ran : (ExceptT.bindCont f (outcome w s).1).run (outcome w s).2 = (r, s') := ran
  generalize outcome w s = first at ran ⊢
  obtain ⟨x, t⟩ := first
  cases x with
  | error e =>
    cases ran
    exact Or.inl ⟨e, rfl, rfl⟩
  | ok a => exact Or.inr ⟨a, t, rfl, ran⟩

theorem settled_bind_cases {x : Except CommandError α} (ran : outcome (settled x >>= f) s = (r, s')) :
    (∃ e, x = .error e ∧ r = .error e ∧ s' = s) ∨ ∃ a, x = .ok a ∧ outcome (f a) s = (r, s') := by
  cases x with
  | error e =>
    cases ran
    exact Or.inl ⟨e, rfl, rfl, rfl⟩
  | ok a => exact Or.inr ⟨a, rfl, ran⟩

theorem outcome_act_bind (x : StateM σ α) (f : α → Work (StateM σ) β) (s : σ) :
    outcome (act x >>= f) s = outcome (f (x.run s).1) (x.run s).2 := rfl

theorem keeps_act {x : StateM σ α} (hx : Keeps contents x) : Keeps contents (ExceptT.run (act x)) := hx

theorem contents_of_keeps (hw : Keeps contents (ExceptT.run w)) {x : Except CommandError α}
    (ran : outcome w s = (x, s')) : contents s' = contents s := by
  have kept : contents (outcome w s).2 = contents s := hw s
  rwa [ran] at kept

end

variable {h : Host (StateM σ)} {settings : Settings} {file path : String} {c : Configuration} {s s' t : σ}

theorem ofReading_eq_ok {reading : Except String String} (h : Configuration.ofReading file reading = .ok c) :
    ∃ text, reading = .ok text ∧ Yaml.load text = .ok c := by
  cases reading with
  | error e => cases h
  | ok text => exact ⟨text, rfl, Outcome.mapError_eq_ok.1 h⟩

/-- A loaded configuration is that of the text in the file. -/
theorem load_cases (hk : h.KeepsFiles contents) {r : Except CommandError Configuration}
    (ran : outcome (load h file) s = (r, s')) :
    contents s' = contents s ∧
      ∀ c, r = .ok c → ∃ text, contents s file = some text ∧ Yaml.load text = .ok c := by
  have ran : ((Configuration.ofReading file ((h.read file).run s).1).mapError CommandError.service,
      ((h.read file).run s).2) = (r, s') := ran
  cases ran
  refine ⟨hk.read file s, fun c loaded => ?_⟩
  obtain ⟨text, reading, parsed⟩ := ofReading_eq_ok (Outcome.mapError_eq_ok.1 loaded)
  exact ⟨text, (hk.reads file text s).1 reading, parsed⟩

/-- The failure of a write. The files are as it left them. -/
def WriteFailed (h : Host (StateM σ)) (contents : σ → String → Option String) (s s' : σ)
    (e : CommandError) : Prop :=
  ∃ file text t, contents t = contents s ∧ ((h.write file text).run t).1 = false ∧
    contents s' = contents ((h.write file text).run t).2 ∧
    e = .reported (ServiceError.failed ("write configuration: " ++ file)).message

/-- A piece of work that fails. The files are as they were, unless it is a write that fails. -/
def Failed (h : Host (StateM σ)) (contents : σ → String → Option String) (s s' : σ)
    (r : Except CommandError α) : Prop :=
  ∃ e, r = .error e ∧ (contents s' = contents s ∨ WriteFailed h contents s s' e)

theorem Failed.between {s t t' : σ} {r : Except CommandError α} (failed : Failed h contents t t' r)
    (before : contents t = contents s) (after : contents s' = contents t') :
    Failed h contents s s' r := by
  obtain ⟨e, rfl, kept | ⟨file, text, u, same, fails, left, rfl⟩⟩ := failed
  · exact ⟨e, rfl, Or.inl (after.trans (kept.trans before))⟩
  · exact ⟨_, rfl, Or.inr ⟨file, text, u, same.trans before, fails, after.trans left, rfl⟩⟩

/-- A configuration without a document is not stored, and otherwise its document is written. -/
theorem store_cases {result : Except ServiceError Unit} {alerts : List Alert}
    (ran : (h.toStorage.save file c).run s = ((result, alerts), s')) :
    (∃ e, result = .error e ∧ s' = s) ∨
      ∃ text, Yaml.emit c = .ok text ∧ s' = ((h.write file text).run s).2 ∧
        ((((h.write file text).run s).1 = true ∧ result = .ok ()) ∨
          (((h.write file text).run s).1 = false ∧
            result = .error (.failed ("write configuration: " ++ file)))) := by
  unfold Storage.save at ran
  cases emitted : Yaml.emit c with
  | error e =>
    rw [emitted] at ran
    cases ran
    exact Or.inl ⟨_, rfl, rfl⟩
  | ok text =>
    rw [emitted] at ran
    refine Or.inr ⟨text, rfl, ?_⟩
    dsimp only at ran
    rw [run_bind] at ran
    split at ran
    · rename_i works
      cases ran
      exact ⟨rfl, Or.inl ⟨works, rfl⟩⟩
    · rename_i fails
      cases ran
      exact ⟨rfl, Or.inr ⟨Bool.eq_false_iff.2 fails, rfl⟩⟩

/-- Saving writes the document of a configuration, if it has one. -/
theorem save_cases (hk : h.KeepsFiles contents) {r : Except CommandError Unit}
    (ran : outcome (save h file c) s = (r, s')) :
    Failed h contents s s' r ∨ r = .ok () ∧ ∃ text, Yaml.emit c = .ok text ∧ contents s' file = some text := by
  unfold save at ran
  rw [outcome_act_bind] at ran
  generalize stored : (h.toStorage.save file c).run s = after at ran
  obtain ⟨⟨result, alerts⟩, t⟩ := after
  dsimp only at ran
  rw [outcome_act_bind] at ran
  have told := hk.alert alerts t
  cases ran
  obtain ⟨e, rfl, rfl⟩ | ⟨text, emitted, rfl, ⟨works, rfl⟩ | ⟨fails, rfl⟩⟩ := store_cases stored
  · exact Or.inl ⟨_, rfl, Or.inl told⟩
  · exact Or.inr ⟨rfl, text, emitted, by rw [told, hk.writes file text s works]⟩
  · exact Or.inl ⟨_, rfl, Or.inr ⟨file, text, s, rfl, fails, told, rfl⟩⟩

/-! ## Commands that change a file -/

/-- The commands that change the configuration file. -/
def changesFile : Command → Bool
  | .add .. | .edit .. | .delete .. => true
  | _ => false

/-- What becomes of a configuration by a command that succeeds: the configuration after one commit or one
deletion, or nothing if a deletion is declined. `s` is the world in which the configuration has been
loaded. -/
inductive Ends (h : Host (StateM σ)) (settings : Settings) (c : Configuration) (s : σ) :
    Command → Option Configuration → Prop
  | added {parent : String} {key : Option String} {fields : PropertyFields} {n node : NodeRef}
      {p : Composition} {draft : Draft} {composing after : Session}
      (found : c.resolvePath parent = .ok n)
      (composed : (Session.start settings c).compose n false = (.ok p, composing))
      (drafted : fields.draft (key.getD "") none (Session.offeredType p.options
        ((c.tree? n.tree).any (·.isArray n.handle)) (key.getD "")) = .ok draft)
      (committed : composing.commit draft = (.ok node, after)) :
      Ends h settings c s (.add parent key fields) (some after.config)
  | edited {path : String} {key : Option String} {fields : PropertyFields} {n node : NodeRef}
      {p : Composition} {current : NodeData} {draft : Draft} {composing after : Session}
      (found : c.resolvePath path = .ok n) (known : c.data? n = some current)
      (composed : (Session.start settings c).compose n true = (.ok p, composing))
      (drafted : fields.draft (key.getD current.key) (some current) none = .ok draft)
      (committed : composing.commit draft = (.ok node, after)) :
      Ends h settings c s (.edit path key fields) (some after.config)
  | deleted {path : String} {confirmed : Bool} {n : NodeRef} {after : Session} {t : σ}
      (found : c.resolvePath path = .ok n)
      (answered : confirmed = true ∨
        outcome (confirm h ((Session.start settings c).deletionPrompt n)) s = (.ok .yes, t))
      (deleted : (Session.start settings c).delete n .yes = (.ok true, after)) :
      Ends h settings c s (.delete path confirmed) (some after.config)
  | declined {path : String} {n : NodeRef} {t : σ} (found : c.resolvePath path = .ok n)
      (answered : outcome (confirm h ((Session.start settings c).deletionPrompt n)) s = (.ok .no, t)) :
      Ends h settings c s (.delete path false) none

/-- The files after a command that succeeds: nothing has changed, or the file holds a document. -/
def FileAfter (contents : σ → String → Option String) (file : String) (s s' : σ) :
    Option Configuration → Prop
  | none => contents s' = contents s
  | some c => ∃ text, Yaml.emit c = .ok text ∧ contents s' file = some text

theorem addProperty_ends {parent : String} {key : Option String} {fields : PropertyFields}
    {after : Session} {node : NodeRef}
    (added : (Session.start settings c).addProperty parent key fields = .ok (after, node)) :
    Ends h settings c s (.add parent key fields) (some after.config) := by
  obtain ⟨n, p, draft, found, composed, -, drafted, committed⟩ := Session.addProperty_cases added
  exact .added found composed drafted committed

theorem editProperty_ends {path : String} {key : Option String} {fields : PropertyFields}
    {after : Session} {node : NodeRef}
    (edited : (Session.start settings c).editProperty path key fields = .ok (after, node)) :
    Ends h settings c s (.edit path key fields) (some after.config) := by
  obtain ⟨n, p, current, draft, found, known, composed, drafted, committed⟩ :=
    Session.editProperty_cases edited
  exact .edited found known composed drafted committed

theorem answered_of_delete_ok {s after : Session} {n : NodeRef} {answer : Confirmation} {deleted : Bool}
    (h : s.delete n answer = (.ok deleted, after)) :
    (answer = .no ∧ deleted = false) ∨ (answer = .yes ∧ deleted = true) := by
  unfold Session.delete at h
  cases answer with
  | failed => cases h
  | no =>
    cases h
    exact Or.inl ⟨rfl, rfl⟩
  | yes =>
    dsimp only at h
    split at h
    · cases h
      exact Or.inr ⟨rfl, rfl⟩
    · cases h

section

variable (hk : h.KeepsFiles contents) {r : Except CommandError Unit}
include hk

theorem keeps_say (text : String) : Keeps contents (ExceptT.run (say h text)) :=
  keeps_act (hk.print _)

theorem keeps_confirm (question : String) : Keeps contents (ExceptT.run (confirm h question)) := by
  intro s
  have asked := (hk.readLine _).trans (hk.complain (question ++ " [y/N] ") s)
  show contents (outcome (confirm h question) s).2 = contents s
  unfold confirm
  rw [outcome_act_bind, outcome_act_bind]
  split <;> exact asked

theorem saved_then_said {text : String}
    (ran : outcome (do save h file c; say h text) s = (r, s')) :
    Failed h contents s s' r ∨ r = .ok () ∧ FileAfter contents file s s' (some c) := by
  obtain ⟨e, saved, rfl⟩ | ⟨⟨⟩, t, saved, ran⟩ := bind_cases ran
  · obtain ⟨e', same, kept⟩ | ⟨bad, -⟩ := save_cases hk saved
    · cases same
      exact Or.inl ⟨e, rfl, kept⟩
    · cases bad
  · obtain ⟨e', same, -⟩ | ⟨-, text, emitted, written⟩ := save_cases hk saved
    · cases same
    have told := contents_of_keeps (keeps_say hk _) ran
    cases ran
    exact Or.inr ⟨rfl, text, emitted, by rw [told, written]⟩

theorem finishEdit_cases {done : String} {edit : Except CommandError (Session × NodeRef)}
    (ran : outcome (finishEdit h file done edit) s = (r, s')) :
    Failed h contents s s' r ∨
      ∃ after node, edit = .ok (after, node) ∧ r = .ok () ∧
        FileAfter contents file s s' (some after.config) := by
  obtain ⟨e, -, rfl, rfl⟩ | ⟨⟨after, node⟩, succeeded, ran⟩ := settled_bind_cases ran
  · exact Or.inl ⟨e, rfl, Or.inl rfl⟩
  · obtain failed | ⟨rfl, saved⟩ := saved_then_said hk ran
    · exact Or.inl failed
    · exact Or.inr ⟨after, node, succeeded, rfl, saved⟩

/-- The end of a deletion, when its result is known. -/
theorem deleted_cases {result : Except ServiceError Bool} {after : Session} {text : String}
    (ran : outcome (do
      let deleted ← settled (result.mapError CommandError.service)
      if deleted then
        save h file after.config
        succeed h text
      else warn h "aborted") s = (r, s')) :
    Failed h contents s s' r ∨ r = .ok () ∧
      ((result = .ok true ∧ FileAfter contents file s s' (some after.config)) ∨
        (result = .ok false ∧ FileAfter contents file s s' none)) := by
  obtain ⟨e, -, rfl, rfl⟩ | ⟨deleted, known, ran⟩ := settled_bind_cases ran
  · exact Or.inl ⟨e, rfl, Or.inl rfl⟩
  · rw [Outcome.mapError_eq_ok] at known
    cases deleted with
    | true =>
      obtain failed | ⟨rfl, saved⟩ := saved_then_said hk ran
      · exact Or.inl failed
      · exact Or.inr ⟨rfl, Or.inl ⟨known, saved⟩⟩
    | false =>
      have told := contents_of_keeps (keeps_act (hk.complain _)) ran
      cases ran
      exact Or.inr ⟨rfl, Or.inr ⟨known, told⟩⟩

/-- A deletion when the answer is known. -/
theorem answered_cases (ses : Session) (n : NodeRef) (answer : Confirmation) {text : String}
    (ran : outcome (match ses.delete n answer with
      | (result, after) => do
        let deleted ← settled (result.mapError CommandError.service)
        if deleted then
          save h file after.config
          succeed h text
        else warn h "aborted") s = (r, s')) :
    Failed h contents s s' r ∨ r = .ok () ∧
      ((answer = .yes ∧ ∃ after, ses.delete n .yes = (.ok true, after) ∧
          FileAfter contents file s s' (some after.config)) ∨
        (answer = .no ∧ FileAfter contents file s s' none)) := by
  generalize done : ses.delete n answer = step at ran
  obtain ⟨result, after⟩ := step
  obtain failed | ⟨rfl, ⟨rfl, saved⟩ | ⟨rfl, kept⟩⟩ := deleted_cases hk ran
  · exact Or.inl failed
  · obtain ⟨-, bad⟩ | ⟨rfl, -⟩ := answered_of_delete_ok done
    · cases bad
    · exact Or.inr ⟨rfl, Or.inl ⟨rfl, after, done, saved⟩⟩
  · obtain ⟨rfl, -⟩ | ⟨-, bad⟩ := answered_of_delete_ok done
    · exact Or.inr ⟨rfl, Or.inr ⟨rfl, kept⟩⟩
    · cases bad

/-- A command begins with the configuration in the file, or fails. -/
theorem loaded_cases {f : Configuration → Work (StateM σ) Unit}
    (ran : outcome (load h file >>= f) s = (r, s')) :
    Failed h contents s s' r ∨
      ∃ old c t, contents s file = some old ∧ Yaml.load old = .ok c ∧ contents t = contents s ∧
        outcome (load h file) s = (.ok c, t) ∧ outcome (f c) t = (r, s') := by
  obtain ⟨e, loaded, rfl⟩ | ⟨c, t, loaded, ran⟩ := bind_cases ran
  · exact Or.inl ⟨e, rfl, Or.inl (load_cases hk loaded).1⟩
  · obtain ⟨kept, texts⟩ := load_cases hk loaded
    obtain ⟨old, there, parsed⟩ := texts c rfl
    exact Or.inr ⟨old, c, t, there, parsed, kept, loaded, ran⟩

/-- A deletion once the configuration is loaded. -/
theorem deletion_cases {confirmed : Bool} (ran : outcome (do
      let node ← settled (Session.refused (c.resolvePath path))
      let s := Session.start settings c
      let answer ← if confirmed then pure .yes else confirm h (s.deletionPrompt node)
      let (result, s) := s.delete node answer
      let deleted ← settled (result.mapError .service)
      if deleted then
        save h file s.config
        succeed h ("deleted " ++ path)
      else warn h "aborted") s = (r, s')) :
    Failed h contents s s' r ∨ r = .ok () ∧
      ∃ result, Ends h settings c s (.delete path confirmed) result ∧
        FileAfter contents file s s' result := by
  obtain ⟨e, -, rfl, rfl⟩ | ⟨n, found, ran⟩ := settled_bind_cases ran
  · exact Or.inl ⟨e, rfl, Or.inl rfl⟩
  rw [Session.refused_eq_ok] at found
  dsimp only at ran
  cases confirmed with
  | true =>
    rw [if_pos rfl, pure_bind] at ran
    obtain failed | ⟨rfl, ⟨-, after, deleted, saved⟩ | ⟨bad, -⟩⟩ := answered_cases hk _ n .yes ran
    · exact Or.inl failed
    · exact Or.inr ⟨rfl, _, .deleted (t := s) found (Or.inl rfl) deleted, saved⟩
    · cases bad
  | false =>
    rw [if_neg Bool.false_ne_true] at ran
    obtain ⟨e, asked, rfl⟩ | ⟨answer, t, asked, ran⟩ := bind_cases ran
    · exact Or.inl ⟨e, rfl, Or.inl (contents_of_keeps (keeps_confirm hk _) asked)⟩
    have kept := contents_of_keeps (keeps_confirm hk _) asked
    obtain failed | ⟨rfl, ⟨rfl, after, deleted, saved⟩ | ⟨rfl, declined⟩⟩ := answered_cases hk _ n answer ran
    · exact Or.inl (failed.between kept rfl)
    · exact Or.inr ⟨rfl, _, .deleted found (Or.inr asked) deleted, saved⟩
    · exact Or.inr ⟨rfl, none, .declined found asked, Eq.trans declined kept⟩

theorem runWith_cases {command : Command} {project : String} (changes : command.changesFile)
    (ran : outcome (runWith h settings file project command) s = (r, s')) :
    Failed h contents s s' r ∨ r = .ok () ∧
      ∃ old c t result, contents s file = some old ∧ Yaml.load old = .ok c ∧
        outcome (load h file) s = (.ok c, t) ∧ Ends h settings c t command result ∧
          FileAfter contents file s s' result := by
  cases command with
  | add parent key fields =>
    obtain failed | ⟨old, c, t, there, parsed, kept, loaded, ran⟩ := loaded_cases hk
      (f := fun c => finishEdit h file "added"
        ((Session.start settings c).addProperty parent key fields)) ran
    · exact Or.inl failed
    obtain failed | ⟨after, node, added, rfl, saved⟩ := finishEdit_cases hk ran
    · exact Or.inl (failed.between kept rfl)
    · exact Or.inr ⟨rfl, old, c, t, _, there, parsed, loaded, addProperty_ends added, saved⟩
  | edit path key fields =>
    obtain failed | ⟨old, c, t, there, parsed, kept, loaded, ran⟩ := loaded_cases hk
      (f := fun c => finishEdit h file "updated"
        ((Session.start settings c).editProperty path key fields)) ran
    · exact Or.inl failed
    obtain failed | ⟨after, node, edited, rfl, saved⟩ := finishEdit_cases hk ran
    · exact Or.inl (failed.between kept rfl)
    · exact Or.inr ⟨rfl, old, c, t, _, there, parsed, loaded, editProperty_ends edited, saved⟩
  | delete path confirmed =>
    unfold runWith runDelete at ran
    obtain failed | ⟨old, c, t, there, parsed, kept, loaded, ran⟩ := loaded_cases hk ran
    · exact Or.inl failed
    obtain failed | ⟨rfl, result, ends, after⟩ := deletion_cases hk ran
    · exact Or.inl (failed.between kept rfl)
    · refine Or.inr ⟨rfl, old, c, t, result, there, parsed, loaded, ends, ?_⟩
      cases result with
      | some c' => exact after
      | none => exact Eq.trans after kept
  | _ => cases changes

theorem keeps_loadSettings (project : String) :
    Keeps contents (ExceptT.run (loadSettings h project)) := by
  intro s
  show contents (outcome (loadSettings h project) s).2 = contents s
  unfold loadSettings
  rw [outcome_act_bind]
  exact hk.settings (some project) s

/-- Telling a failure leaves all files alone. -/
theorem exists_outcome_of_run {i : Invocation} (ran : (i.run h).run s = (r, s')) :
    ∃ t, outcome (Command.run h i) s = (r, t) ∧ contents s' = contents t := by
  unfold Invocation.run at ran
  rw [run_bind] at ran
  generalize worked : outcome (Command.run h i) s = after
  obtain ⟨x, t⟩ := after
  rw [show (ExceptT.run (Command.run h i)).run s = (x, t) from worked] at ran
  cases x with
  | ok =>
    cases ran
    exact ⟨_, rfl, rfl⟩
  | error e =>
    dsimp only at ran
    split at ran
    · rw [run_bind] at ran
      cases ran
      exact ⟨t, rfl, hk.complain _ t⟩
    · cases ran
      exact ⟨_, rfl, rfl⟩

end

end Command

open Command in
/-- **The file after a command.** Take a command line that adds, edits or deletes, in a world with any
files, settings among them. If the command fails, all files are as they were, unless it fails because a
write does. If it succeeds, the configuration file was there and held a configuration; either a deletion
is declined and all files are as they were, or the file holds the document of this configuration after
one commit or one deletion. -/
theorem Invocation.file_after {h : Host (StateM σ)} (hk : h.KeepsFiles contents) {i : Invocation}
    {command : Command} (asked : i.command = some command) (changes : command.changesFile) {s s' : σ}
    {r : Except CommandError Unit} (ran : (i.run h).run s = (r, s')) :
    Failed h contents s s' r ∨ r = .ok () ∧
      ∃ settings s₁ s₂ old c result,
        let project := i.project.getD h.directory
        let file := PathName.join project (i.file.getD settings.defaultFile)
        outcome (loadSettings h project) s = (.ok settings, s₁) ∧
          contents s file = some old ∧ Yaml.load old = .ok c ∧
          outcome (load h file) s₁ = (.ok c, s₂) ∧ Ends h settings c s₂ command result ∧
          FileAfter contents file s s' result := by
  obtain ⟨t, worked, told⟩ := exists_outcome_of_run hk ran
  have worked : outcome (loadSettings h (i.project.getD h.directory) >>= fun settings =>
      runWith h settings (PathName.join (i.project.getD h.directory) (i.file.getD settings.defaultFile))
        (i.project.getD h.directory) command) s = (r, t) := by
    unfold Command.run at worked
    rw [asked] at worked
    cases command with
    | add | edit | delete => exact worked
    | _ => cases changes
  have keeps := keeps_loadSettings hk (i.project.getD h.directory)
  obtain ⟨e, loaded, rfl⟩ | ⟨settings, s₁, loaded, worked⟩ := bind_cases worked
  · exact Or.inl ⟨e, rfl, Or.inl (told.trans (contents_of_keeps keeps loaded))⟩
  have before := contents_of_keeps keeps loaded
  obtain failed | ⟨rfl, old, c, s₂, result, there, parsed, found, ends, after⟩ :=
    runWith_cases hk changes worked
  · exact Or.inl (failed.between before told)
  · rw [before] at there
    refine Or.inr ⟨rfl, settings, s₁, s₂, old, c, result, loaded, there, parsed, found, ends, ?_⟩
    cases result with
    | none => exact told.trans (Eq.trans after before)
    | some c' =>
      obtain ⟨text, emitted, written⟩ := after
      exact ⟨text, emitted, by rw [told, written]⟩

/-- A directory with a configuration file, and the command line that adds a property to it. -/
def portFile : Memory := .ofFiles "/project" [("config.yaml", "default:\n  port: 1\n")]

@[inherit_doc portFile]
def addHost : Invocation where
  command := some (.add "default" (some "host") { value := some "local" })

theorem Invocation.file_after_addHost :
    ∃ s', (addHost.run (Memory.host "/project" [])).run portFile = (.ok (), s') ∧
      ∃ old c c' text file, (portFile.read "/project" file).toOption = some old ∧ Yaml.load old = .ok c ∧
        Yaml.emit c' = .ok text ∧ (s'.read "/project" file).toOption = some text := by
  have works : ((addHost.run (Memory.host "/project" [])).run portFile).1 = .ok () := by decide +kernel
  generalize ran : (addHost.run (Memory.host "/project" [])).run portFile = result at works ⊢
  obtain ⟨r, s'⟩ := result
  obtain rfl : r = .ok () := works
  obtain ⟨e, bad, -⟩ | ⟨-, settings, s₁, s₂, old, c, result, -, there, parsed, -, ends, after⟩ :=
    Invocation.file_after (Memory.keepsFiles_host "/project" []) rfl rfl ran
  · cases bad
  · cases ends with
    | added =>
      obtain ⟨text, emitted, written⟩ := after
      exact ⟨s', rfl, old, c, _, text, _, there, parsed, emitted, written⟩

end LayeredConfig
