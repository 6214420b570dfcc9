import LayeredConfig.Proofs.Compile.KeysAndValues
import LayeredConfig.Proofs.Yaml.Layout

/-!
# Writing without markers and comments

What is written for nodes without anchors, aliases and comments depends on their keys and values alone
(`emitDraft_of_unadorned`). Of the items of an array not even the keys matter
(`settingLines_numbered`), and of scalars not what is below them (`settingLines_layered`).
-/

namespace LayeredConfig

/-- The form in which a node without markers is written. -/
def Content.form (content : Content) (leaf : Bool) : Yaml.Form :=
  match content with
  | .value v => .scalar v
  | .object => if leaf then .emptyMapping else .mapping []
  | .array => if leaf then .emptySequence else .sequence

namespace Yaml

/-- The lines of settings, behind keys or behind dashes. -/
def settingLines (dashes : Bool) : Forest Setting → List String
  | .nil => []
  | .cons s cs ss =>
    let w := (s.content.form cs.isEmpty).written none (settingLines (s.content = .array) cs)
    (if dashes then w.underDash else w.underKey (Quoting.scalar s.key)) ++ settingLines dashes ss

/-- The settings of an object as a document. -/
def settingsText (f : Forest Setting) : String :=
  if f.isEmpty then "\x7b\x7d\n" else joinLines (settingLines false f)

theorem formOf_of_unadorned {d : NodeData} (h : d.Unadorned) (leaf : Bool) :
    formOf d leaf = d.setting.content.form leaf := by
  cases type : d.type <;> cases leaf <;>
    simp [formOf, NodeData.setting, Content.form, type, h.aliases, h.anchor]

theorem linesOf_of_unadorned {dashes : Bool} {f : Forest NodeData}
    (hf : f.Everywhere fun n => n.label.Unadorned) :
    linesOf dashes f = settingLines dashes (f.map NodeData.setting) := by
  induction f generalizing dashes with
  | nil => rfl
  | cons d cs ss ihc ihs =>
    obtain ⟨hd, hcs, hss⟩ := Forest.everywhere_cons.1 hf
    rw [linesOf, Forest.map, settingLines, hd.comment, ownLines, formOf_of_unadorned hd, hd.anchor,
      ihc hcs, ihs hss, Forest.isEmpty_map]
    simp only [NodeData.content_eq_array]
    rfl

/-- Of a node without markers nothing is announced. -/
theorem announce_of_unadorned (validate : Bool) {d : NodeData} (hd : d.Unadorned) (leaf : Bool)
    (path : String) (declared : List String) :
    announce validate d leaf path declared = .ok ((), declared) := by
  have writable : unwritable? d leaf = none := by
    rw [unwritable?, hd.aliases]
    rfl
  cases validate with
  | false =>
    rw [announce_false, hd.anchor]
    rfl
  | true =>
    rw [announce_true, hd.anchor, hd.aliases, writable]
    rfl

theorem exists_nodeLines_of_unadorned (validate dashes : Bool) {f : Forest NodeData}
    (hf : f.Everywhere fun n => n.label.Unadorned) (path : String) (declared : List String) :
    ∃ lines, nodeLines validate path dashes f declared = .ok (lines, declared) := by
  induction f generalizing dashes path with
  | nil => exact ⟨[], rfl⟩
  | cons d cs ss ihc ihs =>
    obtain ⟨hd, hcs, hss⟩ := Forest.everywhere_cons.1 hf
    obtain ⟨body, hbody⟩ := ihc (d.type = .array) hcs (joinKeys path [d.key])
    obtain ⟨rest, hrest⟩ := ihs dashes hss path
    have announced := announce_of_unadorned validate hd cs.isEmpty (joinKeys path [d.key]) declared
    let lines := fun body => commentLines d.comment ++ (if dashes then (written d cs.isEmpty body).underDash
      else (written d cs.isEmpty body).underKey (Quoting.scalar d.key)) ++ rest
    rw [nodeLines]
    by_cases container : d.type.isContainer
    · refine ⟨lines body, Outcome.run_bind_eq_ok.2 ⟨(), declared, announced, ?_⟩⟩
      rw [if_pos container]
      exact Outcome.run_bind_eq_ok.2 ⟨body, declared, hbody, Outcome.run_bind_eq_ok.2 ⟨rest, declared, hrest, rfl⟩⟩
    · refine ⟨lines [], Outcome.run_bind_eq_ok.2 ⟨(), declared, announced, ?_⟩⟩
      rw [if_neg container]
      exact Outcome.run_bind_eq_ok.2 ⟨[], declared, rfl, Outcome.run_bind_eq_ok.2 ⟨rest, declared, hrest, rfl⟩⟩

/-- **A draft without markers and comments is written by its settings.** -/
theorem emitDraft_of_unadorned (validate : Bool) {d : Draft}
    (hd : d.children.Everywhere fun n => n.label.Unadorned) :
    emitDraft validate d = .ok (settingsText (d.children.map NodeData.setting)) := by
  unfold emitDraft settingsText Draft.isLeaf
  rw [Forest.isEmpty_map]
  by_cases leaf : d.children.isEmpty
  · rw [if_pos leaf, if_pos leaf]
  · obtain ⟨lines, written⟩ := exists_nodeLines_of_unadorned validate false hd d.label.key []
    rw [if_neg leaf, if_neg leaf]
    refine Outcome.bind_eq_ok.2 ⟨lines, Outcome.run'_eq_ok.2 ⟨[], written⟩, ?_⟩
    rw [lines_eq written, linesOf_of_unadorned hd]
    rfl

/-! ## What does not matter -/

theorem settingLines_atPosition (f : Forest Setting) (first : Nat) :
    settingLines true (f.mapRoots Setting.atPosition first) = settingLines true f := by
  induction f generalizing first with
  | nil => rfl
  | cons s cs ss _ ih =>
    rw [Forest.mapRoots, settingLines, settingLines, ih]
    simp only [if_true, Setting.atPosition]
    rfl

theorem isEmpty_numbered (f : Forest Setting) : f.numbered.isEmpty = f.isEmpty := by
  cases f <;> rfl

/-- Items are written without their keys. -/
theorem settingLines_numbered (dashes : Bool) (f : Forest Setting) :
    settingLines dashes f.numbered = settingLines dashes f := by
  induction f generalizing dashes with
  | nil => rfl
  | cons s cs ss ihc ihs =>
    rw [Forest.numbered, settingLines, settingLines, ihs]
    by_cases array : s.content = .array
    · rw [if_pos array, Forest.isEmpty_mapRoots, isEmpty_numbered]
      simp only [array, decide_true]
      rw [settingLines_atPosition, ihc]
    · rw [if_neg array, isEmpty_numbered, ihc]

theorem isEmpty_layered (f : Forest NodeData) :
    (f.layered.map Layered.setting).isEmpty = (f.map NodeData.setting).isEmpty := by
  cases f <;> rfl

/-- Scalars are written without what is below them. -/
theorem settingLines_layered (dashes : Bool) (f : Forest NodeData) :
    settingLines dashes (f.layered.map Layered.setting) =
      settingLines dashes (f.map NodeData.setting) := by
  induction f generalizing dashes with
  | nil => rfl
  | cons d cs ss ihc ihs =>
    rw [Forest.layered, Forest.map, Forest.map, settingLines, settingLines, Layered.setting_ofData,
      ihs]
    by_cases scalar : d.type.isScalar
    · rw [if_pos scalar, NodeData.content_of_scalar scalar]
      rfl
    · rw [if_neg scalar, ihc, isEmpty_layered]

/-- A layer with its items keyed anew is written as its tree. -/
theorem settingsText_layered (f : Forest NodeData) :
    settingsText (f.layered.map Layered.setting).numbered = settingsText (f.map NodeData.setting) := by
  unfold settingsText
  rw [isEmpty_numbered, isEmpty_layered, settingLines_numbered, settingLines_layered]

end Yaml

end LayeredConfig
