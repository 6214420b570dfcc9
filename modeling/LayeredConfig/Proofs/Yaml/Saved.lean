import LayeredConfig.Proofs.Tree.Fitting
import LayeredConfig.Proofs.Yaml.Accepted

/-!
# Saved configurations

When the text of a configuration is loaded again. The configuration is orderly: its names are such as
anchors have, and its scalars have no children. Where its texts are such as are read as they were
written (`Legible`), nothing but the keys of objects and the environments decides (`load_emit_iff`).
-/

namespace LayeredConfig

namespace Text

theorem mem_splitAt {sep : Char} {cs part : List Char} (h : part ∈ splitAt sep cs) :
    ∀ c ∈ part, c ∈ cs ∧ c ≠ sep := by
  induction cs generalizing part with
  | nil =>
    rw [splitAt, List.mem_singleton] at h
    subst h
    exact List.forall_mem_nil _
  | cons x cs ih =>
    have grown {part : List Char} (h : part ∈ splitAt sep cs) : ∀ c ∈ part, c ∈ x :: cs ∧ c ≠ sep :=
      fun c hc => ⟨List.mem_cons_of_mem x (ih h c hc).1, (ih h c hc).2⟩
    rw [splitAt] at h
    split at h
    · rcases List.mem_cons.1 h with rfl | h
      · exact List.forall_mem_nil _
      · exact grown h
    · rename_i other
      split at h
      · rw [List.mem_singleton] at h
        subst h
        exact List.forall_mem_singleton.2 ⟨List.mem_cons_self, other⟩
      · rename_i first parts same
        rw [same] at grown
        rcases List.mem_cons.1 h with rfl | h
        · exact List.forall_mem_cons.2 ⟨⟨List.mem_cons_self, other⟩, grown List.mem_cons_self⟩
        · exact grown (List.mem_cons_of_mem _ h)

theorem mem_of_mem_dropReturn {line : List Char} {c : Char} (h : c ∈ dropReturn line) : c ∈ line := by
  unfold dropReturn at h
  split at h
  · exact (List.dropLast_sublist _).mem h
  · exact h

/-- The characters of a line are those of the text, line feeds apart. -/
theorem mem_lines {text line : String} (h : line ∈ lines text) :
    ∀ c ∈ line.toList, c ∈ text.toList ∧ c ≠ '\n' := by
  obtain ⟨cs, inside, rfl⟩ := List.mem_map.1 h
  rw [String.toList_ofList]
  have parts : ∀ part ∈ (splitAt '\n' text.toList).reverse, ∀ c ∈ part, c ∈ text.toList ∧ c ≠ '\n' :=
    fun part hp => mem_splitAt (List.mem_reverse.1 hp)
  unfold linesOf at inside
  split at inside
  · cases inside
  · rename_i last before same
    rw [same, List.forall_mem_cons] at parts
    rcases List.mem_append.1 inside with inside | inside
    · obtain ⟨part, hp, rfl⟩ := List.mem_map.1 inside
      exact fun c hc => parts.2 part (List.mem_reverse.1 hp) c (mem_of_mem_dropReturn hc)
    · split at inside
      · cases inside
      · rw [List.mem_singleton.1 inside]
        exact parts.1

theorem trimEnd_cons {c : Char} (ink : isBlank c = false) (cs : List Char) : trimEnd (c :: cs) = c :: trimEnd cs := by
  rw [trimEnd, trimEnd, List.reverse_cons, List.dropWhile_append]
  split
  · rename_i blank
    rw [List.isEmpty_iff.1 blank, List.dropWhile_cons_of_neg (by simp [ink])]
    rfl
  · rw [List.reverse_append, List.reverse_singleton, List.singleton_append]

theorem mem_of_mem_trimEnd {cs : List Char} {c : Char} (h : c ∈ trimEnd cs) : c ∈ cs :=
  List.mem_reverse.1 ((List.dropWhile_sublist _).mem (List.mem_reverse.1 h))

end Text

namespace Yaml

/-! ## Nodes -/

/-- A comment without carriage returns and null characters is written as comment lines. -/
theorem isComment_of_mem_commentLines {comment : Option String}
    (fine : ∀ text ∈ comment, ∀ c ∈ text.toList, c ≠ '\r' ∧ c ≠ '\x00') {l : String}
    (h : l ∈ commentLines comment) : IsComment l := by
  cases comment with
  | none => cases h
  | some text =>
    obtain ⟨line, inside, rfl⟩ := List.mem_map.1 h
    refine ⟨Text.trimEnd (' ' :: line.toList), ?_, fun c hc => ?_⟩
    · rw [String.toList_ofList, String.toList_append]
      exact Text.trimEnd_cons (by decide) _
    · rcases List.mem_cons.1 (Text.mem_of_mem_trimEnd hc) with rfl | hc
      · rfl
      · obtain ⟨source, feed⟩ := Text.mem_lines inside c hc
        obtain ⟨back, zero⟩ := fine text rfl c source
        simp [isBreakOrEnd, isBreak, isEnd, feed, back, zero]

/-- The texts of a node are read as they were written. -/
structure Legible (d : NodeData) : Prop where
  key : Quoting.Legible d.key
  /-- Further than this from its colon nothing is a key. -/
  near : (Quoting.scalar d.key).toList.length ≤ 1024
  own : d.key ≠ mergeKey
  value : ∀ v ∈ d.value, ∀ s ∈ v.string?, Quoting.Legible s
  comment : ∀ text ∈ d.comment, ∀ c ∈ text.toList, c ≠ '\r' ∧ c ≠ '\x00'

instance (d : NodeData) : Decidable (Legible d) :=
  decidable_of_iff (Quoting.Legible d.key ∧ (Quoting.scalar d.key).toList.length ≤ 1024 ∧ d.key ≠ mergeKey ∧
      (∀ v ∈ d.value, ∀ s ∈ v.string?, Quoting.Legible s) ∧
      ∀ text ∈ d.comment, text.toList.all fun c => c ≠ '\r' ∧ c ≠ '\x00')
    ⟨fun ⟨key, near, own, value, comment⟩ => ⟨key, near, own, value, by simpa using comment⟩,
      fun h => ⟨h.key, h.near, h.own, h.value, by simpa using h.comment⟩⟩

theorem allScannable {f : Forest NodeData} (fits : f.Everywhere (Rose.Fits IsName))
    (legible : f.Everywhere fun r => Legible r.label) (dashes : Bool) : AllScannable dashes f := by
  induction f generalizing dashes with
  | nil => trivial
  | cons d below ss ihc ihs =>
    obtain ⟨here, inner, others⟩ := Forest.everywhere_cons.1 fits
    obtain ⟨here', inner', others'⟩ := Forest.everywhere_cons.1 legible
    refine ⟨?_, ihc inner inner' _, ihs others others' _⟩
    exact
      { key := fun _ => ⟨here'.key, here'.near⟩
        anchor := fun a ha => here.names a (List.mem_append_left _ (Option.mem_toList.2 ha))
        aliases := fun a ha => here.names a (List.mem_append_right _ ha)
        value := fun _ => inscription_scalarText fun s same => here'.value _ same s rfl
        comment := fun l hl => isComment_of_mem_commentLines here'.comment hl
        leaf := fun scalar => isEmpty_eq_true.2 (here.leaf scalar) }

theorem readable {f : Forest NodeData} (fits : f.Everywhere (Rose.Fits IsName))
    (legible : f.Everywhere fun r => Legible r.label) : Readable f where
  leaves := fits.mono fun _ h => h.leaf
  scannable := allScannable fits legible false
  ownKeys := legible.mono fun _ h => h.own

/-! ## Configurations -/

variable {c : Configuration} {out : String}

/-- The entry of a tree in the document of its configuration. -/
def rootEntry (t : Tree) : Draft := ⟨{ t.top.label.data with comment := none }, t.top.children.map (·.data)⟩

/-- The two entries of a configuration. -/
def entries (c : Configuration) : Forest NodeData :=
  .cons (rootEntry c.default).label (rootEntry c.default).children <|
    .cons (rootEntry c.environments).label (rootEntry c.environments).children .nil

theorem emit_eq_ok (saved : emit c = .ok out) :
    ∃ lines declared, nodeLines true "" false (entries c) [] = .ok (lines, declared) ∧ out = joinLines lines := by
  obtain ⟨lines, written, joined⟩ := Outcome.bind_eq_ok.1 saved
  obtain ⟨declared, written⟩ := Outcome.run'_eq_ok.1 written
  cases joined
  exact ⟨lines, declared, written, rfl⟩

/-- The comments of the two roots are not written. -/
theorem everywhere_entries {P : Rose NodeData → Prop} (h : c.Everywhere P)
    (bare : ∀ d cs, P ⟨d, cs⟩ → P ⟨{ d with comment := none }, cs⟩) : (entries c).Everywhere P :=
  Forest.everywhere_cons.2 ⟨bare _ _ h.1.1, h.1.2,
    Forest.everywhere_cons.2 ⟨bare _ _ h.2.1, h.2.2, Forest.everywhere_nil⟩⟩

theorem fits_of_orderly (orderly : c.Orderly IsName) : c.Everywhere (Rose.Fits IsName) :=
  ⟨Tree.fits_iff.1 orderly.default.fits, Tree.fits_iff.1 orderly.environments.fits⟩

/-- What is written of an orderly configuration can be read. -/
theorem readable_entries (fits : c.Everywhere (Rose.Fits IsName)) (legible : c.Everywhere fun r => Legible r.label) :
    Readable (entries c) :=
  readable (everywhere_entries fits fun _ _ h => ⟨h.names, h.leaf⟩)
    (everywhere_entries legible fun _ _ h => ⟨h.key, h.near, h.own, h.value, nofun⟩)

/-- The default tree is written first, so it is no alias. -/
theorem not_isBareAlias_first {lines declared : List String} {d : NodeData} {below f : Forest NodeData}
    (object : d.type = .object)
    (written : nodeLines true "" false (.cons d below f) [] = .ok (lines, declared)) : ¬IsBareAlias ⟨d, below⟩ := by
  rintro ⟨name, type, bare⟩
  rw [nodeLines] at written
  obtain ⟨⟨⟩, declared', announced, -⟩ := Outcome.run_bind_eq_ok.1 written
  obtain ⟨rfl, known, fine⟩ := announce_ok announced
  have shape : Shape d below.isEmpty (formOf d below.isEmpty) :=
    shape_formOf fun scalar => by rw [object] at scalar; cases scalar
  rw [bare] at shape
  cases shape with
  | aliased _ _ listed _ =>
    have declared := known name listed
    rw [anchor_of_aliased fine bare] at declared
    cases declared

/-- What the loader asks of a configuration: distinct keys in each object, and environments that are
read as mappings. -/
structure Loadable (c : Configuration) : Prop where
  keys : c.Everywhere ObjectKeys
  written : ¬IsBareAlias (c.environments.top.map (·.data))
  environments : ∀ before r after, (c.environments.top.children.map (·.data)).roots = before ++ r :: after →
    ReadsAsEnvironment (declarations ((c.default.top.map (·.data)).preorder ++
      c.environments.top.label.data :: before.flatMap Rose.preorder)) r

/-- **Saved configurations.** -/
theorem load_emit_iff (saved : emit c = .ok out) (orderly : c.Orderly IsName)
    (legible : c.Everywhere fun r => Legible r.label) : (∃ c', load out = .ok c') ↔ Loadable c := by
  obtain ⟨lines, declared, written, rfl⟩ := emit_eq_ok saved
  have fine : Readable (entries c) := readable_entries (fits_of_orderly orderly) legible
  refine (load_written_iff written fine orderly.default.root.1 orderly.environments.root.1
    orderly.default.root.2 orderly.environments.root.2 rfl).trans ?_
  rw [and_iff_right (not_isBareAlias_first (d := (rootEntry c.default).label) orderly.default.root.2 written)]
  have before (ds : List NodeData) :
      declarations ((rootEntry c.default).preorder ++ (rootEntry c.environments).label :: ds) =
      declarations ((c.default.top.map (·.data)).preorder ++ c.environments.top.label.data :: ds) := by
    rw [declarations_append, declarations_append]
    rfl
  exact ⟨fun h => ⟨⟨h.1, h.2.1.2⟩, h.2.1.1, fun ds r after same => before _ ▸ h.2.2 ds r after same⟩,
    fun h => ⟨h.keys.1, ⟨h.written, h.keys.2⟩, fun ds r after same =>
      (before (ds.flatMap Rose.preorder)).symm ▸ h.environments ds r after same⟩⟩

end Yaml

end LayeredConfig
