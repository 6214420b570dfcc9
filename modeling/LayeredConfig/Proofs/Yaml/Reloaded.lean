import LayeredConfig.Proofs.Yaml.Comments
import LayeredConfig.Proofs.Yaml.LoadedData

/-!
# What is read back

A node is read with the data that were written, its comment apart, and only an alias can differ: it is read with
the type of the latest declaration of its name (`reread`). So forests are read back iff all aliases keep their
types (`reread_eq_iff`).
-/

namespace LayeredConfig.Yaml

open Document

/-! ## Aliases and their types -/

/-- The data with which a node is read behind some declarations. -/
def readAs (H : History) (d : NodeData) (leaf : Bool) : NodeData :=
  match formOf d leaf with
  | .aliased name _ => { d with type := (H.lookup name).getD .object }
  | _ => d

/-- A forest as it is read behind some declarations. -/
def reread (H : History) : Forest NodeData → Forest NodeData
  | .nil => .nil
  | .cons d below ss =>
    let H := declarations [d] ++ H
    .cons (readAs H d below.isEmpty) (reread H below) (reread (declarations below.preorder ++ H) ss)

/-- A node that is written as an alias has the type of the latest declaration of its name. -/
def KeepsType (H : History) (r : Rose NodeData) : Prop :=
  match formOf r.label r.children.isEmpty with
  | .aliased name type => H.lookup name = some type
  | _ => True

instance (H : History) (r : Rose NodeData) : Decidable (KeepsType H r) := by
  unfold KeepsType
  split <;> infer_instance

/-- So do all aliases among some nodes, which declare their anchors one after the other. -/
def KeepTypes (H : History) : List (Rose NodeData) → Prop
  | [] => True
  | r :: rs => KeepsType H r ∧ KeepTypes (declarations [r.label] ++ H) rs

instance decidableKeepTypes : ∀ (H : History) (rs : List (Rose NodeData)), Decidable (KeepTypes H rs)
  | _, [] => .isTrue trivial
  | H, r :: rs =>
    have := decidableKeepTypes (declarations [r.label] ++ H) rs
    inferInstanceAs (Decidable (KeepsType H r ∧ KeepTypes (declarations [r.label] ++ H) rs))

theorem keepTypes_append {H : History} {rs rs' : List (Rose NodeData)} :
    KeepTypes H (rs ++ rs') ↔ KeepTypes H rs ∧ KeepTypes (declarations (rs.map Rose.label) ++ H) rs' := by
  induction rs generalizing H with
  | nil => exact (and_iff_right trivial).symm
  | cons r rs ih =>
    rw [List.cons_append, KeepTypes, KeepTypes, ih, and_assoc, List.map_cons,
      declarations_cons r.label (rs.map Rose.label), List.append_assoc]

theorem keepTypes_cons {H : History} {d : NodeData} {below ss : Forest NodeData} :
    KeepTypes H (Forest.cons d below ss).subtrees ↔ KeepsType H ⟨d, below⟩ ∧
      KeepTypes (declarations [d] ++ H) below.subtrees ∧
      KeepTypes (declarations below.preorder ++ (declarations [d] ++ H)) ss.subtrees := by
  rw [Forest.subtrees, KeepTypes, keepTypes_append, Forest.map_label_subtrees]

/-! ## Nodes -/

/-- The data of a node that is written in a form, its comment apart, as far as they are read. -/
inductive Regained (d : NodeData) : Form → Prop
  | aliased (name : String) (same : d.uncommented = { key := d.key, type := d.type, aliases := [name] }) :
    Regained d (.aliased name d.type)
  | scalar (same : d.uncommented = { (match d.value with
      | some value => .ofScalar d.key value
      | none => { key := d.key, type := .string } : NodeData) with anchor := d.anchor })
    (proper : ∀ v ∈ d.value, v.Proper) : Regained d (.scalar d.value)
  | emptyMapping (same : d.uncommented = { key := d.key, anchor := d.anchor }) : Regained d .emptyMapping
  | emptySequence (same : d.uncommented = { key := d.key, type := .array, anchor := d.anchor }) :
    Regained d .emptySequence
  | mapping (same : d.uncommented = { key := d.key, anchor := d.anchor, aliases := d.aliases }) :
    Regained d (.mapping d.aliases)
  | sequence (same : d.uncommented = { key := d.key, type := .array, anchor := d.anchor }) : Regained d .sequence

theorem regained_formOf {d : NodeData} {leaf : Bool} (read : d.AsRead) (fine : unwritable? d leaf = none) :
    Regained d (formOf d leaf) := by
  have empty (some : d.aliases ≠ []) : d.value = none := by
    cases held : d.value with
    | none => rfl
    | some v => exact absurd (read.value v held).2.2 some
  have single := read.single
  cases type : d.type with
  | string | boolean | number =>
    have scalar : d.type.isScalar := by rw [type]; rfl
    rw [formOf_scalar (by rw [type]; rfl)]
    rcases aliases : d.aliases with - | ⟨a, - | ⟨b, more⟩⟩
    · refine .scalar ?_ fun v hv => (read.value v hv).1
      cases held : d.value with
      | none => simp [NodeData.uncommented, aliases, held, read.nothing scalar held aliases]
      | some v => simp [NodeData.uncommented, NodeData.ofScalar, aliases, held, (read.value v held).2.1]
    · have unanchored : d.anchor = none := by simpa [unwritable?, aliases, type] using fine
      exact .aliased a (by simp [NodeData.uncommented, aliases, unanchored, empty (by simp [aliases])])
    · rw [type, aliases] at single
      exact absurd (single (by decide)) (by simp)
  | object =>
    have value := read.value_eq_none (by rw [type]; rfl)
    have mapping : Regained d (.mapping d.aliases) := .mapping (by simp [NodeData.uncommented, type, value])
    cases leaf with
    | false => simpa [formOf, type] using mapping
    | true =>
      rcases aliases : d.aliases with - | ⟨a, - | ⟨b, more⟩⟩
      · rw [formOf, type, aliases]
        exact .emptyMapping (by simp [NodeData.uncommented, type, value, aliases])
      · cases anchor : d.anchor with
        | none =>
          have aliased := Regained.aliased (d := d) a (by simp [NodeData.uncommented, value, aliases, anchor])
          simpa [formOf, type, aliases, anchor] using aliased
        | some b => simpa [formOf, type, aliases, anchor] using mapping
      · simpa [formOf, type, aliases] using mapping
  | array =>
    have value := read.value_eq_none (by rw [type]; rfl)
    rw [type] at single
    cases leaf with
    | false =>
      have aliases : d.aliases = [] := by simpa [unwritable?, type] using fine
      rw [formOf, type]
      exact .sequence (by simp [NodeData.uncommented, type, value, aliases])
    | true =>
      rcases aliases : d.aliases with - | ⟨a, - | ⟨b, more⟩⟩
      · have bare := Regained.emptySequence (d := d) (by simp [NodeData.uncommented, type, value, aliases])
        cases anchor : d.anchor <;> simpa [formOf, type, aliases, anchor] using bare
      · have unanchored : d.anchor = none := by simpa [unwritable?, aliases, type] using fine
        have aliased := Regained.aliased (d := d) a (by simp [NodeData.uncommented, value, aliases, unanchored])
        simpa [formOf, type, aliases, unanchored] using aliased
      · rw [aliases] at single
        exact absurd (single (by decide)) (by simp)

/-- What is asked of a node that is to be read back. -/
structure Regainable (r : Rose NodeData) : Prop where
  leaf : ScalarLeaf r
  read : r.label.AsRead
  fine : unwritable? r.label r.children.isEmpty = none
  own : r.label.key ≠ mergeKey
  numbered : ItemsNumbered r

variable {s : Source} {H : History} {d : NodeData} {below ss : Forest NodeData}

theorem readAs_of_declared {leaf : Bool} (own : (formOf d leaf).isDeclared) : readAs H d leaf = d := by
  unfold readAs
  split
  · rename_i form
    rw [form] at own
    cases own
  · rfl

theorem readAs_of_aliased {leaf : Bool} {name : String} {type : ValueType} (form : formOf d leaf = .aliased name type) :
    readAs H d leaf = { d with type := (H.lookup name).getD .object } := by
  rw [readAs, form]

/-- A draft has the data of a node as they are read, its comment apart. The key is set by what holds the node. -/
structure Rereads (H : History) (d : NodeData) (below : Forest NodeData) (draft : Draft) : Prop where
  here : { draft.label with key := d.key, comment := none } = (readAs H d below.isEmpty).uncommented
  below : draft.children.map NodeData.uncommented = (reread H below).map NodeData.uncommented

/-- What reading the entries of a mapping gives. -/
def RereadsEntries (s : Source) (f : Forest NodeData) : Prop :=
  ∀ (H : History) (parent : String) (seen : List String) (line : Nat),
    Yields (entryDrafts s parent seen (documents H (items false line f))) fun r =>
      r.1 = [] ∧ r.2.map NodeData.uncommented = (reread H f).map NodeData.uncommented

/-- What reading the items of a sequence gives, which are keyed by their positions. -/
def RereadsItems (s : Source) (f : Forest NodeData) : Prop :=
  ∀ (H : History) (position line : Nat), f.rootKeys NodeData.key = (List.range' position f.roots.length).map itemKey →
    Yields (itemDrafts s position ((documents H (items true line f)).map (·.2))) fun drafts =>
      drafts.map NodeData.uncommented = (reread H f).map NodeData.uncommented

/-- The merge key gives back the aliases under it. -/
theorem yields_merged (H : History) (line : Nat) (merged : List String) {parent : String}
    {es : List (Document × Document)} (Q : Forest NodeData → Prop)
    (h : Yields (entryDrafts s parent [] es) fun r => r.1 = [] ∧ Q r.2) :
    Yields (entryDrafts s parent [] (mergeEntry H line merged ++ es)) fun r => r.1 = merged ∧ Q r.2 := by
  have one {value : Document} {names : List String} (sources : mergeSources parent value = .ok names) :
      Yields (entryDrafts s parent [] ((.scalar line none "<<" true, value) :: es)) fun r => r.1 = names ∧ Q r.2 := by
    rw [entryDrafts, if_pos (by rfl), sources]
    exact .bind (.lift (Q := (· = names)) fun _ same => (Except.ok.inj same).symm) fun _ same =>
      h.bind fun r hr => .pure ⟨by rw [same, hr.1, List.append_nil], hr.2⟩
  rcases merged with - | ⟨a, - | ⟨b, names⟩⟩
  · exact h
  · exact one rfl
  · exact one (mergeNames_aliases parent H line (a :: b :: names))

/-- **A node.** It is read with its data, comment apart, and an alias with the type of its anchor. -/
theorem rereads_toDraft (can : Regainable ⟨d, below⟩) (ownKeys : below.Everywhere fun r => r.label.key ≠ mergeKey)
    (entries : RereadsEntries s below) (its : RereadsItems s below) (H : History) (dashes : Bool) (line line' : Nat)
    (name : String) :
    Yields (toDraft s name ((itemOf dashes line d below).document H
      (documents H (items (d.type = .array) line' below))))
      fun draft => draft.label.key = name ∧ Rereads H d below draft := by
  have shape : Shape d below.isEmpty (formOf d below.isEmpty) :=
    shape_formOf fun scalar => isEmpty_eq_true.2 (can.leaf scalar)
  have bottom (h : (formOf d below.isEmpty).isBottom) : below = .nil := isEmpty_eq_true.1 (shape.leaf_of_isBottom h)
  have declared (h : (formOf d below.isEmpty).isDeclared) :
      (readAs H d below.isEmpty).uncommented = d.uncommented := congrArg _ (readAs_of_declared h)
  have regained : Regained d (formOf d below.isEmpty) := regained_formOf can.read can.fine
  rw [Item.document, itemOf_form]
  generalize form : formOf d below.isEmpty = written at regained shape bottom declared ⊢
  cases regained with
  | aliased a same =>
    obtain rfl := bottom rfl
    dsimp only [aliasDocument]
    rw [toDraft]
    refine .pure ⟨rfl, ?_, rfl⟩
    rw [readAs_of_aliased form]
    exact congrArg (fun d : NodeData => { d with type := (H.lookup a).getD .object }) same.symm
  | scalar same proper =>
    obtain rfl := bottom rfl
    have back := scalarBack_eq proper
    rw [scalarBack] at back
    dsimp only
    rw [toDraft, back]
    refine .pure ⟨by cases d.value <;> rfl, ?_, rfl⟩
    rw [declared rfl, same]
    cases d.value <;> rfl
  | emptyMapping same =>
    obtain rfl := bottom rfl
    dsimp only
    rw [toDraft, entryDrafts, pure_bind]
    dsimp only
    rw [inlineDrafts, pure_bind]
    exact .pure ⟨rfl, ((declared rfl).trans same).symm, rfl⟩
  | emptySequence same =>
    obtain rfl := bottom rfl
    dsimp only [List.map_nil]
    rw [toDraft, itemDrafts, pure_bind]
    exact .pure ⟨rfl, ((declared rfl).trans same).symm, rfl⟩
  | mapping same =>
    cases shape with
    | mapping type =>
      have mapping : decide (d.type = .array) = false := by rw [type]; rfl
      dsimp only
      rw [mapping, toDraft]
      refine (yields_merged H _ d.aliases (fun f => f.map _ = (reread H below).map _) (entries H name [] line')).bind
        fun r hr => ?_
      dsimp only
      rw [inlineDrafts_written _ (ownKeys_items ownKeys false line'), pure_bind, hr.1]
      exact .pure ⟨rfl, ((declared rfl).trans same).symm, hr.2⟩
  | sequence same =>
    cases shape with
    | sequence type =>
      have array : decide (d.type = .array) = true := by rw [type]; rfl
      dsimp only
      rw [array, toDraft]
      refine (its H 0 line' ?_).bind fun children hc => .pure ⟨rfl, ((declared rfl).trans same).symm, hc⟩
      rw [can.numbered type, List.range_eq_range']

/-- **An entry**, and those behind it. -/
theorem rereadsEntries_cons (can : (Forest.cons d below ss).Everywhere Regainable) (entries : RereadsEntries s below)
    (its : RereadsItems s below) (rest : RereadsEntries s ss) : RereadsEntries s (.cons d below ss) := by
  intro H parent seen line
  obtain ⟨here, inner, others⟩ := Forest.everywhere_cons.1 can
  rw [items, documents, entryDrafts, isMergeKey_keyDocument here.own, if_neg Bool.false_ne_true,
    declare_itemOf here.fine, declareAll_items (inner.mono fun _ h => h.fine)]
  refine .bind (.lift (Q := (· = d.key)) fun _ same => (Except.ok.inj same).symm) fun name text => .check fun _ =>
    .after fun comment => ?_
  rw [text]
  refine (rereads_toDraft here (inner.mono fun _ h => h.own) entries its _ _ _ _ _).bind fun draft hd =>
    (rest _ parent _ _).bind fun r hr => .pure ⟨hr.1, ?_⟩
  have label : { draft.label with comment := none } = (readAs (declarations [d] ++ H) d below.isEmpty).uncommented := by
    rw [← hd.2.here, ← hd.1]
  rw [Forest.map, reread, Forest.map, hd.2.below, hr.2]
  exact congrArg (Forest.cons · _ _) label

/-- **An item**, and those behind it. -/
theorem rereadsItems_cons (can : (Forest.cons d below ss).Everywhere Regainable) (entries : RereadsEntries s below)
    (its : RereadsItems s below) (rest : RereadsItems s ss) : RereadsItems s (.cons d below ss) := by
  intro H position line numbered
  obtain ⟨here, inner, others⟩ := Forest.everywhere_cons.1 can
  rw [Forest.rootKeys_cons, Forest.roots, List.length_cons, List.range'_succ, List.map_cons, List.cons.injEq]
    at numbered
  rw [items, documents, List.map_cons, itemDrafts, declare_itemOf here.fine,
    declareAll_items (inner.mono fun _ h => h.fine)]
  refine .after fun comment => ?_
  refine (rereads_toDraft here (inner.mono fun _ h => h.own) entries its _ _ _ _ "").bind fun draft hd =>
    (rest _ (position + 1) _ numbered.2).bind fun rest hr => .pure ?_
  rw [Forest.map, reread, Forest.map, hd.2.below, hr, ← hd.2.here, numbered.1]
  rfl

/-- **Entries and items** are read as they were written, aliases with the types of their anchors. By induction on the
forest: what is declared above a node is what was written above it. -/
theorem rereads_entries_and_items (s : Source) (f : Forest NodeData) (can : f.Everywhere Regainable) :
    RereadsEntries s f ∧ RereadsItems s f := by
  induction f with
  | nil => exact ⟨fun H parent seen line => .pure ⟨rfl, rfl⟩, fun H position line _ => .pure rfl⟩
  | cons d below ss ihc ihs =>
    obtain ⟨-, inner, others⟩ := Forest.everywhere_cons.1 can
    obtain ⟨entries, its⟩ := ihc inner
    exact ⟨rereadsEntries_cons can entries its (ihs others).1, rereadsItems_cons can entries its (ihs others).2⟩

/-! ## What is read back unchanged -/

theorem readAs_eq_iff (can : Regainable ⟨d, below⟩)
    (known : (formOf d below.isEmpty).Resolves (declarations [d] ++ H)) :
    (readAs (declarations [d] ++ H) d below.isEmpty).uncommented = d.uncommented ↔ KeepsType H ⟨d, below⟩ := by
  unfold KeepsType
  have regained : Regained d (formOf d below.isEmpty) := regained_formOf can.read can.fine
  have declared (h : (formOf d below.isEmpty).isDeclared) :
      (readAs (declarations [d] ++ H) d below.isEmpty).uncommented = d.uncommented := congrArg _ (readAs_of_declared h)
  generalize form : formOf d below.isEmpty = written at regained known declared
  cases regained with
  | aliased a =>
    have unanchored : d.anchor = none := anchor_of_aliased can.fine form
    have unanchored : declarations [d] = [] := by simp [declarations, unanchored]
    rw [readAs_of_aliased form]
    rw [unanchored, List.nil_append] at known ⊢
    obtain ⟨type, found⟩ := Option.isSome_iff_exists.1 known
    rw [found, Option.getD_some]
    dsimp only
    rw [found, Option.some_inj]
    exact ⟨congrArg NodeData.type, fun same => by rw [same]⟩
  | _ => exact iff_of_true (declared rfl) trivial

/-- **What is read back unchanged.** Nothing but the types of aliases can differ, comments apart. -/
theorem reread_eq_iff {f : Forest NodeData} (can : f.Everywhere Regainable) {dashes : Bool} {line : Nat}
    (resolved : Resolved H (items dashes line f)) :
    (reread H f).map NodeData.uncommented = f.map NodeData.uncommented ↔ KeepTypes H f.subtrees := by
  induction f generalizing H dashes line with
  | nil => exact iff_of_true rfl trivial
  | cons d below ss ihc ihs =>
    obtain ⟨here, inner, others⟩ := Forest.everywhere_cons.1 can
    rw [items, Resolved, declare_itemOf here.fine, declareAll_items (inner.mono fun _ h => h.fine), itemOf_form]
      at resolved
    obtain ⟨known, -, resolvedBelow, resolvedBehind⟩ := resolved
    rw [reread, Forest.map, Forest.map, Forest.cons.injEq, readAs_eq_iff here known, ihc inner resolvedBelow,
      ihs others resolvedBehind, keepTypes_cons]

end LayeredConfig.Yaml
