import LayeredConfig.Proofs.Yaml.ClaimedLines
import LayeredConfig.Proofs.Yaml.ScalarValues

/-!
# Loaded data

What the nodes of loaded trees hold beside their names: values that a text can stand for, of the type of the
node, and never both a value and an alias (`asRead_of_load`). Their comments are lines of the text, with no blank
at the end of a line (`trimmed_of_load`). The two roots are bare (`readBelow_of_load`).
-/

namespace LayeredConfig

/-- The data of a node as they are read. -/
structure NodeData.AsRead (d : NodeData) : Prop where
  /-- A value is of the type of the node, and the node repeats no other. -/
  value : ∀ v ∈ d.value, v.Proper ∧ d.type = v.valueType ∧ d.aliases = []
  /-- A scalar without a value, which repeats no other, is a string. -/
  nothing : d.type.isScalar → d.value = none → d.aliases = [] → d.type = .string
  /-- Only mappings repeat several others. -/
  single : d.type ≠ .object → d.aliases.length ≤ 1

/-- A container has no value. -/
theorem NodeData.AsRead.value_eq_none {d : NodeData} (read : d.AsRead) (container : d.type.isScalar = false) :
    d.value = none := by
  cases held : d.value with
  | none => rfl
  | some v =>
    rw [(read.value v held).2.1, v.valueType_isScalar] at container
    cases container

namespace Yaml

open Document

/-! ## Drafts -/

/-- Drafts whose data are as they are read. -/
abbrev AllRead (f : Forest NodeData) : Prop := f.Everywhere fun r => r.label.AsRead

theorem asRead_scalar {key text : String} {plain : Bool} (anchor : Option String) :
    let data : NodeData := match scalarValue text plain with
      | some value => .ofScalar key value
      | none => { key, type := .string }
    ({ data with anchor } : NodeData).AsRead := by
  cases read : scalarValue text plain with
  | none => exact ⟨nofun, fun _ _ _ => rfl, fun _ => Nat.zero_le 1⟩
  | some v =>
    refine ⟨?_, nofun, fun _ => Nat.zero_le 1⟩
    rintro _ ⟨⟩
    exact ⟨proper_scalarValue read, rfl, rfl⟩

mutual

/-- **Nodes.** The data of a draft are as they are read. -/
theorem reads_draft (s : Source) : ∀ (d : Document) (key : String),
    Yields (toDraft s key d) fun draft => draft.Everywhere fun r => r.label.AsRead
  | .scalar line anchor text plain, key => by
    rw [toDraft]
    exact .pure ⟨asRead_scalar anchor, Forest.everywhere_nil⟩
  | .alias line name type, key => by
    rw [toDraft]
    exact .pure ⟨⟨nofun, fun _ _ => nofun, fun _ => Nat.le_refl 1⟩, Forest.everywhere_nil⟩
  | .mapping line anchor entries, key => by
    rw [toDraft]
    refine .bind (reads_entries s entries key []) fun r own => ?_
    exact .bind (reads_inline s entries own) fun children all =>
      .pure ⟨⟨nofun, nofun, fun other => absurd rfl other⟩, all⟩
  | .sequence line anchor items, key => by
    rw [toDraft]
    exact .bind (reads_items s items 0) fun children all => .pure ⟨⟨nofun, nofun, fun _ => Nat.zero_le 1⟩, all⟩

theorem reads_items (s : Source) : ∀ (items : List Document) (position : Nat),
    Yields (itemDrafts s position items) AllRead
  | [], position => by
    rw [itemDrafts]
    exact .pure Forest.everywhere_nil
  | item :: items, position => by
    rw [itemDrafts]
    exact .after fun comment => .bind (reads_draft s item "") fun draft hd =>
      .bind (reads_items s items (position + 1)) fun rest hr =>
        .pure (Forest.everywhere_cons.2 ⟨⟨hd.1.value, hd.1.nothing, hd.1.single⟩, hd.2, hr⟩)

theorem reads_entries (s : Source) : ∀ (entries : List (Document × Document)) (parent : String) (seen : List String),
    Yields (entryDrafts s parent seen entries) fun r => AllRead r.2
  | [], parent, seen => by
    rw [entryDrafts]
    exact .pure Forest.everywhere_nil
  | (key, value) :: entries, parent, seen => by
    rw [entryDrafts]
    split
    · exact .after fun names => .bind (reads_entries s entries parent seen) fun r hr => .pure hr
    · exact .after fun name => .check fun _ => .after fun comment => .bind (reads_draft s value name) fun draft hd =>
        .bind (reads_entries s entries parent (name :: seen)) fun r hr =>
          .pure (Forest.everywhere_cons.2 ⟨⟨hd.1.value, hd.1.nothing, hd.1.single⟩, hd.2, hr⟩)

theorem reads_inline (s : Source) : ∀ (entries : List (Document × Document)) {own : Forest NodeData}, AllRead own →
    Yields (inlineDrafts s own entries) AllRead
  | [], own, read => by
    rw [inlineDrafts]
    exact .pure read
  | (key, .mapping line anchor inner) :: entries, own, read => by
    rw [inlineDrafts]
    split
    · exact .bind (reads_draft s (.mapping line anchor inner) "") fun draft hd =>
        reads_inline s entries (read.addMissing hd.2)
    · exact reads_inline s entries read
  | (key, .scalar _ _ _ _) :: entries, own, read | (key, .alias _ _ _) :: entries, own, read
  | (key, .sequence _ _ _) :: entries, own, read => by
    simp only [inlineDrafts, ite_self]
    exact reads_inline s entries read

end

theorem reads_treeDrafts (s : Source) (key : String) (value : Document) : Yields (value.treeDrafts s key) AllRead := by
  unfold treeDrafts
  split
  · exact .pure Forest.everywhere_nil
  · cases value with
    | mapping => exact .bind (reads_draft s _ key) fun draft hd => .pure hd.2
    | _ => exact .throw

/-! ## Trees -/

/-- The data of a tree below its root are as they are read, and those of the root are its own. -/
structure ReadBelow (kind : TreeKind) (t : Tree) : Prop where
  root : t.top.label.data = { key := Tree.rootKeyOf kind }
  below : AllRead (t.top.children.map (·.data))

variable {kind : TreeKind} {t : Tree}

theorem readBelow_empty (kind : TreeKind) : ReadBelow kind (.empty kind) := ⟨rfl, Forest.everywhere_nil⟩

theorem ReadBelow.graftAll_root (h : ReadBelow kind t) {drafts : Forest NodeData} (read : AllRead drafts) :
    ReadBelow kind (t.graftAll t.root drafts).1 := by
  have grown := t.top_graftAll_root drafts
  refine ⟨by rw [grown]; exact h.root, ?_⟩
  rw [grown, Forest.map_append, Forest.map_data_number]
  exact Forest.everywhere_append.2 ⟨h.below, read⟩

/-- Environments that are made objects hold no value. -/
theorem allRead_normalizeEnvironments {f f' : Forest Entry} (done : normalizeEnvironments f = .ok f')
    (read : AllRead (f.map (·.data))) : AllRead (f'.map (·.data)) := by
  induction f generalizing f' with
  | nil =>
    cases done
    exact read
  | cons e below rest _ ih =>
    obtain ⟨here, inner, others⟩ := Forest.everywhere_cons.1 read
    rw [normalizeEnvironments] at done
    split at done
    · obtain ⟨rest', normal, same⟩ := Outcome.bind_eq_ok.1 done
      cases same
      exact Forest.everywhere_cons.2 ⟨here, inner, ih normal others⟩
    · split at done
      · rename_i nothing
        obtain ⟨rest', normal, same⟩ := Outcome.bind_eq_ok.1 done
        cases same
        have empty (v : Scalar) (held : v ∈ e.data.value) : False := by
          rw [Option.isNone_iff_eq_none.1 nothing.1] at held
          cases held
        have object : NodeData.AsRead { e.data with type := .object } :=
          ⟨fun v held => (empty v held).elim, fun scalar => absurd scalar Bool.false_ne_true,
            fun other => absurd rfl other⟩
        exact Forest.everywhere_cons.2 ⟨object, inner, ih normal others⟩
      · cases done

/-- **Entries.** Data stay as they are read when the entries of a document are added. -/
theorem reads_addEntries (s : Source) (entries : List (Document × Document)) {c : Configuration}
    (hc : ReadBelow .default c.default ∧ ReadBelow .environments c.environments) :
    Yields (addEntries s c entries) fun c' =>
      ReadBelow .default c'.default ∧ ReadBelow .environments c'.environments := by
  induction entries generalizing c with
  | nil =>
    rw [addEntries]
    exact .pure hc
  | cons e entries ih =>
    obtain ⟨key, value⟩ := e
    rw [addEntries]
    refine .after fun name => ?_
    split
    · exact .bind (reads_treeDrafts s _ value) fun drafts hd => ih ⟨hc.1.graftAll_root hd, hc.2⟩
    · split
      · refine .bind (reads_treeDrafts s _ value) fun drafts hd => ?_
        have grown := hc.2.graftAll_root hd
        generalize (c.environments.graftAll c.environments.root drafts).1 = envs at grown ⊢
        exact .bind (.lift fun children ok => ok) fun children normal =>
          ih ⟨hc.1, grown.root, allRead_normalizeEnvironments normal grown.below⟩
      · exact .throw

/-! ## Configurations -/

variable {text : String} {c : Configuration}

theorem readBelow_of_load (loaded : load text = .ok c) :
    ReadBelow .default c.default ∧ ReadBelow .environments c.environments :=
  reads_addEntries (sourceOf text) (entriesOf text) ⟨readBelow_empty _, readBelow_empty _⟩ [] _
    (addEntries_of_load loaded)

/-- **Loaded data** are as they are read. -/
theorem asRead_of_load (loaded : load text = .ok c) : c.Everywhere fun r => r.label.AsRead := by
  obtain ⟨default, environments⟩ := readBelow_of_load loaded
  have root (kind : TreeKind) : ({ key := Tree.rootKeyOf kind } : NodeData).AsRead :=
    ⟨nofun, nofun, fun other => absurd rfl other⟩
  refine ⟨⟨?_, default.below⟩, ?_, environments.below⟩
  · rw [Rose.map, default.root]
    exact root _
  · rw [Rose.map, environments.root]
    exact root _

/-! ## Comments -/

theorem isBlank_getLast?_trimEnd (cs : List Char) : ∀ c ∈ (Text.trimEnd cs).getLast?, Text.isBlank c = false := by
  intro c hc
  rw [Text.trimEnd, List.getLast?_reverse] at hc
  have ink := List.head?_dropWhile_not Text.isBlank cs.reverse
  rw [hc] at ink
  simpa using ink

/-- The text of a comment line is part of the line, with no blank at its end. -/
theorem of_commentText? {line body : List Char} (h : Source.commentText? line = some body) :
    (∀ c ∈ body, c ∈ line) ∧ ∀ c ∈ body.getLast?, Text.isBlank c = false := by
  have inside : ∀ c ∈ Text.trimEnd (Text.trimStart line), c ∈ line := fun c hc =>
    (List.dropWhile_sublist _).mem (Text.mem_of_mem_trimEnd hc)
  have last := isBlank_getLast?_trimEnd (Text.trimStart line)
  unfold Source.commentText? at h
  generalize Text.trimEnd (Text.trimStart line) = trimmed at h inside last
  -- What is left of a line ends where the line does.
  have rest (front : List Char) (split : trimmed = front ++ body) :
      (∀ c ∈ body, c ∈ line) ∧ ∀ c ∈ body.getLast?, Text.isBlank c = false := by
    refine ⟨fun c hc => inside c (split ▸ List.mem_append_right _ hc), fun c hc => last c ?_⟩
    rw [split, List.getLast?_append, Option.mem_def.1 hc]
    rfl
  split at h
  · cases h
    exact rest ['#', ' '] rfl
  · cases h
    exact rest ['#'] rfl
  · cases h

theorem body_ofText (blocks : List BlockRange) (line : Nat) : '\n' ∉ (Source.ofText text blocks).body line ∧
    ∀ c ∈ ((Source.ofText text blocks).body line).getLast?, Text.isBlank c = false := by
  unfold Source.body
  cases comment : ((Source.ofText text blocks).lines[line]?).bind Source.commentText? with
  | none => exact ⟨List.not_mem_nil, nofun⟩
  | some body =>
    obtain ⟨part, at_line, comment⟩ := Option.bind_eq_some_iff.1 comment
    obtain ⟨inside, last⟩ := of_commentText? comment
    have mem : part ∈ Text.splitAt '\n' text.toList := by
      rw [Source.ofText, List.getElem?_toArray] at at_line
      exact List.mem_of_getElem? at_line
    exact ⟨fun feed => (Text.mem_splitAt mem _ (inside _ feed)).2 rfl, last⟩

/-- A comment has the lines that it was taken from. -/
theorem splitAt_comment {blocks : List BlockRange} {lines : List Nat} {comment : String}
    (h : (Source.ofText text blocks).comment lines = some comment) :
    Text.splitAt '\n' comment.toList = lines.map (Source.ofText text blocks).body := by
  cases lines with
  | nil => cases h
  | cons line lines =>
    cases h
    rw [String.toList_intercalate, List.map_map, Text.splitAt_eq_splitOn]
    refine (List.splitOn_intercalate '\n' ?_ (by simp)).trans (List.map_congr_left fun line _ => String.toList_ofList)
    simp only [List.forall_mem_map, Function.comp_apply, String.toList_ofList]
    exact fun line _ => (body_ofText blocks line).1

/-- What is claimed for the comments of a loaded configuration. -/
theorem notedTrees_of_load (loaded : load text = .ok c) : NotedTrees (sourceOf text) c (claimedIn text) := by
  have empty : NotedTrees (sourceOf text) .empty [] :=
    ⟨.nil, .nil, ⟨rfl, Forest.everywhere_nil⟩, ⟨rfl, Forest.everywhere_nil⟩, .nil⟩
  exact notes_entriesOf (sourceOf text) (entriesOf text) empty _ (addEntries_of_load loaded)

/-- What holds of all that is taken from lines holds of every comment of a tree. -/
theorem CommentsFrom.everywhere {s : Source} {name : String} {lines : Forest KeyLines}
    (taken : CommentsFrom s t name lines) {P : String → Prop}
    (all : ∀ lines, ∀ comment ∈ s.comment lines, P comment) :
    (t.top.map (·.data)).Everywhere fun r => ∀ comment ∈ r.label.comment, P comment := by
  have told : (t.top.map (·.data)).map commentOf = ⟨(name, none), lines.map s.told⟩ := by
    rw [Rose.map_map]
    exact taken.told
  refine (Rose.everywhere_map (h := commentOf) (P := fun n => ∀ comment ∈ n.label.2, P comment)).1 ?_
  rw [told]
  exact ⟨nofun, Forest.everywhere_map.2 fun n _ => all n.label.2⟩

/-- **Loaded comments** have no blank at the end of a line. -/
theorem trimmed_of_load (loaded : load text = .ok c) : c.Everywhere fun r => ∀ comment ∈ r.label.comment,
    ∀ line ∈ Text.splitAt '\n' comment.toList, ∀ c ∈ line.getLast?, Text.isBlank c = false := by
  obtain ⟨d, e, default, environments, -⟩ := notedTrees_of_load loaded
  rw [blocks_sourceOf loaded] at default environments
  have all (lines : List Nat) : ∀ comment ∈ (Source.ofText text (blockRanges (eventLines text))).comment lines,
      ∀ line ∈ Text.splitAt '\n' comment.toList, ∀ c ∈ line.getLast?, Text.isBlank c = false := fun comment taken => by
    rw [splitAt_comment taken, List.forall_mem_map]
    exact fun line _ => (body_ofText _ line).2
  exact ⟨default.everywhere all, environments.everywhere all⟩

end Yaml

end LayeredConfig
