import LayeredConfig.Host.Memory
import LayeredConfig.Proofs.Outcome

/-!
# Hosts and their files

What a proof about files assumes of a host (`Host.KeepsFiles`): a file is read as its contents, only a
write changes files, and a write that works puts its text in place of the file as a whole. What a write
leaves that fails is left open. The host in memory is such a host (`Memory.keepsFiles_host`).
-/

namespace LayeredConfig

variable {σ α β : Type} {contents : σ → String → Option String}

/-- An action that leaves all files alone. -/
def Keeps (contents : σ → String → Option String) (x : StateM σ α) : Prop :=
  ∀ s, contents (x.run s).2 = contents s

/-- What is assumed of a host: a file that can be read has its contents as its text, only writes change
files, and a write that works puts its text in place of the file as a whole. Nothing is said of the
files after a write that fails. -/
structure Host.KeepsFiles (h : Host (StateM σ)) (contents : σ → String → Option String) : Prop where
  reads : ∀ path text s, ((h.read path).run s).1 = .ok text ↔ contents s path = some text
  writes : ∀ path text s, ((h.write path text).run s).1 = true →
    contents ((h.write path text).run s).2 path = some text
  read : ∀ path, Keeps contents (h.read path)
  present : ∀ path, Keeps contents (h.present path)
  print : ∀ text, Keeps contents (h.print text)
  complain : ∀ text, Keeps contents (h.complain text)
  readLine : Keeps contents h.readLine

theorem run_bind (x : StateM σ α) (f : α → StateM σ β) (s : σ) :
    (x >>= f).run s = (f (x.run s).1).run (x.run s).2 := rfl

theorem keeps_pure (a : α) : Keeps contents (pure a : StateM σ α) := fun _ => rfl

theorem Keeps.bind {x : StateM σ α} {f : α → StateM σ β} (hx : Keeps contents x)
    (hf : ∀ a, Keeps contents (f a)) : Keeps contents (x >>= f) :=
  fun s => (hf _ _).trans (hx s)

namespace Host

variable {h : Host (StateM σ)}

theorem KeepsFiles.alert (hk : h.KeepsFiles contents) (alerts : List Alert) :
    Keeps contents (h.alert alerts) := by
  induction alerts with
  | nil => exact keeps_pure ()
  | cons a alerts ih => exact (hk.complain a.line).bind fun _ => ih

theorem KeepsFiles.settingsFile (hk : h.KeepsFiles contents) (path : String) :
    Keeps contents (h.settingsFile path) := by
  refine (hk.present path).bind fun there => ?_
  split
  · exact (hk.read path).bind fun _ => keeps_pure _
  · exact keeps_pure none

theorem KeepsFiles.settings (hk : h.KeepsFiles contents) (project : Option String) :
    Keeps contents (h.settings project) := by
  unfold Host.settings
  dsimp only
  refine Keeps.bind ?_ fun _ => Keeps.bind ?_ fun _ => keeps_pure _
  · split
    · exact hk.settingsFile _
    · exact keeps_pure none
  · split
    · exact hk.settingsFile _
    · exact keeps_pure none

end Host

/-! ## Files in memory -/

namespace Memory

variable {s s' : Memory} {directory path text : String}

theorem follow_congr (same : s'.directories = s.directories) (spot : Spot) (parts : List String) :
    s'.follow spot parts = s.follow spot parts := by
  induction parts generalizing spot with
  | nil => rfl
  | cons part parts ih =>
    unfold follow
    rw [isDirectory, same, ih, ih, ih]
    rfl

theorem read_congr (files : s'.files = s.files) (directories : s'.directories = s.directories) :
    s'.read directory path = s.read directory path := by
  unfold Memory.read locate text? isDirectory
  rw [follow_congr directories, files, directories]

theorem lookup_replaced {files : List (Spot × String)} {spot : Spot} (there : (files.lookup spot).isSome)
    (text : String) :
    (files.map fun (at?, old) => (at?, if at? = spot then text else old)).lookup spot = some text := by
  induction files with
  | nil => cases there
  | cons entry files ih =>
    obtain ⟨place, old⟩ := entry
    rw [List.map_cons, List.lookup_cons]
    by_cases here : place = spot
    · subst here
      rw [beq_self_eq_true, if_pos rfl]
    · have other : (spot == place) = false := beq_false_of_ne (Ne.symm here)
      rw [List.lookup_cons, other] at there
      rw [other]
      exact ih there

theorem text?_put (s : Memory) (spot : Spot) (text : String) : (s.put spot text).text? spot = some text := by
  unfold put
  split
  · rename_i there
    exact lookup_replaced there text
  · rename_i missing
    show (s.files ++ [(spot, text)]).lookup spot = some text
    rw [List.lookup_append, show s.files.lookup spot = none from Option.not_isSome_iff_eq_none.1 missing,
      Option.none_or, List.lookup_cons, beq_self_eq_true]

theorem read_of_write? (written : s.write? directory path text = some s') :
    s'.read directory path = .ok text := by
  unfold write? at written
  cases found : s.locate directory path with
  | none =>
    rw [found] at written
    cases written
  | some spot =>
    rw [found] at written
    dsimp only at written
    split at written
    · cases written
    · cases written
      have place : (s.put spot text).locate directory path = some spot := by
        rw [← found, locate, follow_congr]
        · rfl
        · unfold put
          split <;> rfl
      unfold Memory.read
      rw [place]
      dsimp only
      rw [text?_put]

theorem run_attempt (change : Memory → Option Memory) (s : Memory) :
    (attempt change).run s = ((change s).isSome, (change s).getD s) := by
  unfold attempt
  rw [run_bind, show (get : StateM Memory Memory).run s = (s, s) from rfl]
  dsimp only
  cases change s <;> rfl

theorem keepsFiles_host (directory : String) (vars : Settings.Variables) :
    (host directory vars).KeepsFiles fun s path => (s.read directory path).toOption where
  reads path text s := Outcome.toOption_eq_some.symm
  writes path text s works := by
    have ran := run_attempt (·.write? directory path text) s
    show (((attempt (·.write? directory path text)).run s).2.read directory path).toOption = some text
    have works : ((attempt (·.write? directory path text)).run s).1 = true := works
    rw [ran] at works ⊢
    obtain ⟨s', written⟩ := Option.isSome_iff_exists.1 works
    rw [written, Option.getD_some, Outcome.toOption_eq_some]
    exact read_of_write? written
  read path s := rfl
  present path s := rfl
  print text s := by
    funext path
    exact congrArg _ (read_congr rfl rfl)
  complain text s := by
    funext path
    exact congrArg _ (read_congr rfl rfl)
  readLine s := by
    funext path
    exact congrArg _ (read_congr rfl rfl)

end Memory

end LayeredConfig
