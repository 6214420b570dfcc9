import LayeredConfig.Proofs.Tree.Handles
import LayeredConfig.Proofs.Yaml.Conversions
import LayeredConfig.Proofs.Yaml.Reread
import LayeredConfig.Proofs.Yaml.ScalarTexts

/-!
# What the loader accepts

The loader refuses a document with two keys of one name in a mapping, and environments that hold a
value. Nothing else can be wrong with documents that were written (`load_written_iff`).
-/

namespace LayeredConfig.Yaml

/-! ## Documents -/

/-- Whether data can be those of an environment: of an object, or of nothing at all. -/
def BecomesEnvironment (d : NodeData) : Prop := d.type = .object ∨ (d.value.isNone ∧ d.aliases.isEmpty)

/-- Whether a document can be that of an environment. -/
def Document.IsEnvironment : Document → Prop
  | .scalar _ _ text plain => scalarValue text plain = none
  | .alias _ _ type => type = .object
  | _ => True

/-- Whether a document is a mapping. -/
def Document.isMapping : Document → Bool
  | .mapping .. => true
  | _ => false

/-- Data can be those of an environment iff the value of an entry can. -/
def LikeEnvironment (d : NodeData) (entry : Document × Document) : Prop :=
  BecomesEnvironment d ↔ entry.2.IsEnvironment

/-- Whether the keys of a mapping are distinct. -/
def DistinctKeys (r : Rose Item) : Prop :=
  ∀ merged, r.label.form = .mapping merged → (r.children.rootKeys Item.key).Nodup

/-- Whether a node has another key than the one that merges. -/
def OwnKey (r : Rose Item) : Prop := r.label.key ≠ mergeKey

open Document

theorem isMergeKey_keyDocument {it : Item} (h : it.key ≠ mergeKey) : it.keyDocument.isMergeKey = false := by
  rw [Item.keyDocument]
  generalize decide (Quoting.styleOf it.key = .plain) = plain
  cases plain <;> simp [isMergeKey, h]

theorem mergeNames_aliases (parent : String) (H : History) (line : Nat) (names : List String) :
    Document.mergeNames parent (names.map (aliasDocument H line)) = .ok names := by
  induction names with
  | nil => rfl
  | cons a names ih => rw [List.map_cons, aliasDocument, Document.mergeNames, ih]; rfl

variable {s : Source} {H H' : History} {line : Nat} {merged : List String} {f : Forest Item}

theorem inlineDrafts_cons {own : Forest NodeData} {key value : Document} {es : List (Document × Document)}
    (other : key.isMergeKey = false ∨ value.isMapping = false) :
    inlineDrafts s own ((key, value) :: es) = inlineDrafts s own es := by
  cases value with
  | mapping => rw [inlineDrafts, other.resolve_right Bool.noConfusion, if_neg Bool.false_ne_true]
  | _ => simp only [inlineDrafts, ite_self]

/-- Only mappings under a merge key add entries, and none is written. -/
theorem inlineDrafts_written (own : Forest NodeData) (ownKeys : f.Everywhere OwnKey) :
    inlineDrafts s own (mergeEntry H line merged ++ documents H' f) = pure own := by
  have entries : inlineDrafts s own (documents H' f) = pure own := by
    induction f generalizing H' with
    | nil => rfl
    | cons it below ss _ ih =>
      obtain ⟨key, -, others⟩ := Forest.everywhere_cons.1 ownKeys
      rw [documents, inlineDrafts_cons (.inl (isMergeKey_keyDocument key)), ih others]
  rcases merged with - | ⟨a, - | ⟨b, names⟩⟩
  · exact entries
  · exact (inlineDrafts_cons (.inr rfl)).trans entries
  · exact (inlineDrafts_cons (.inr rfl)).trans entries

/-- The merge key gives its aliases, and the entries behind it are read as they are without it. -/
theorem gives_merged (H : History) (line : Nat) (merged : List String) {parent : String}
    {es : List (Document × Document)} {P : Prop} {Q : Forest NodeData → Prop}
    (h : Gives (entryDrafts s parent [] es) P fun r => Q r.2) :
    Gives (entryDrafts s parent [] (mergeEntry H line merged ++ es)) P fun r => Q r.2 := by
  have one {value : Document} {names : List String} (sources : mergeSources parent value = .ok names) :
      Gives (entryDrafts s parent [] ((.scalar line none "<<" true, value) :: es)) P fun r => Q r.2 := by
    rw [entryDrafts, if_pos (by rfl)]
    refine Gives.congr (P := P ∧ True) (Gives.lift sources (h.bind fun r hr => ?_)) (by simp) fun _ => id
    exact Gives.pure hr
  rcases merged with - | ⟨a, - | ⟨b, names⟩⟩
  · exact h
  · exact one rfl
  · exact one (mergeNames_aliases parent H line (a :: b :: names))

/-! ## Nodes and entries -/

/-- What the loader makes of the entries of a mapping. -/
def GivesEntries (f : Forest Item) : Prop :=
  ∀ (s : Source) (H : History) (parent : String) (seen : List String),
    Gives (entryDrafts s parent seen (documents H f))
      ((f.rootKeys Item.key).Nodup ∧ (∀ k ∈ f.rootKeys Item.key, k ∉ seen) ∧ f.Everywhere DistinctKeys)
      fun r => List.Forall₂ LikeEnvironment r.2.rootLabels (documents H f)

/-- What the loader makes of the items of a sequence. -/
def GivesItems (f : Forest Item) : Prop :=
  ∀ (s : Source) (H : History) (position : Nat),
    Gives (itemDrafts s position ((documents H f).map (·.2))) (f.Everywhere DistinctKeys) fun _ => True

/-- **A node.** It is accepted iff its own keys are distinct and what is below it is accepted. -/
theorem gives_toDraft {it : Item} {below : Forest Item} (entries : GivesEntries below) (items : GivesItems below)
    (bottom : it.form.isBottom → below = .nil) (ownKeys : below.Everywhere OwnKey) (key : String) :
    Gives (toDraft s key (it.document H (documents H below))) (Rose.Everywhere DistinctKeys ⟨it, below⟩)
      fun draft => (BecomesEnvironment draft.label ↔ (it.document H (documents H below)).IsEnvironment) ∧
        ((it.document H (documents H below)).isMapping →
          List.Forall₂ LikeEnvironment draft.children.rootLabels (documents H below)) := by
  have childless (h : it.form.isBottom) : True ↔ Rose.Everywhere DistinctKeys ⟨it, below⟩ := by
    rw [bottom h]
    exact iff_of_true trivial ⟨fun merged _ => List.nodup_nil, Forest.everywhere_nil⟩
  cases form : it.form with
  | aliased name type =>
    rw [Item.document, form]
    refine Gives.congr (Gives.pure ?_) (childless (by rw [form]; rfl)) fun _ => id
    simp [BecomesEnvironment, aliasDocument, Document.IsEnvironment, Document.isMapping]
  | scalar value =>
    rw [Item.document, form]
    refine Gives.congr (Gives.pure ?_) (childless (by rw [form]; rfl)) fun _ => id
    refine ⟨?_, fun mapping => absurd mapping Bool.false_ne_true⟩
    rw [Document.IsEnvironment]
    cases scalarValue (scalarRead value) (scalarStyle value = .plain) with
    | none => simp [BecomesEnvironment]
    | some v => cases v <;> simp [BecomesEnvironment, NodeData.ofScalar, Scalar.valueType]
  | emptyMapping =>
    rw [Item.document, form]
    refine Gives.congr (Gives.pure ?_) (childless (by rw [form]; rfl)) fun _ => id
    refine ⟨by simp [BecomesEnvironment, Document.IsEnvironment], fun _ => ?_⟩
    rw [bottom (by rw [form]; rfl)]
    exact .nil
  | emptySequence =>
    rw [Item.document, form]
    refine Gives.congr (Gives.pure ?_) (childless (by rw [form]; rfl)) fun _ => id
    exact ⟨by simp [BecomesEnvironment, Document.IsEnvironment], fun mapping => absurd mapping Bool.false_ne_true⟩
  | mapping merged =>
    rw [Item.document, form]
    have own := gives_merged H it.block merged
      (Q := fun own => List.Forall₂ LikeEnvironment own.rootLabels (documents H below)) (entries s H key [])
    refine Gives.congr (P := _ ∧ True ∧ True) (own.bind fun r alike => ?_) ?_ fun _ => id
    · dsimp only
      rw [inlineDrafts_written _ ownKeys]
      refine (Gives.pure (Q := (· = r.2)) rfl).bind fun children same => Gives.pure ?_
      exact ⟨by simp [BecomesEnvironment, Document.IsEnvironment], fun _ => same ▸ alike⟩
    · simp [Rose.Everywhere, DistinctKeys, form]
  | sequence =>
    rw [Item.document, form]
    refine Gives.congr ((items s H 0).bind fun children _ => Gives.pure ?_) ?_ fun _ => id
    · exact ⟨by simp [BecomesEnvironment, Document.IsEnvironment], fun mapping => absurd mapping Bool.false_ne_true⟩
    · simp [Rose.Everywhere, DistinctKeys, form]

/-- **Entries and items.** By induction on the forest, whose nodes carry the keys met before on. -/
theorem gives_entries_and_items (f : Forest Item) (ownKeys : f.Everywhere OwnKey) {H : History}
    (resolved : Resolved H f) :
    GivesEntries f ∧ GivesItems f := by
  induction f generalizing H with
  | nil =>
    exact ⟨fun s H parent seen => Gives.congr (Gives.pure .nil) (by simp) fun _ => id,
      fun s H position => Gives.congr (Gives.pure trivial) (by simp [Forest.everywhere_nil]) fun _ => id⟩
  | cons it below ss ihc ihs =>
    obtain ⟨key, inner, others⟩ := Forest.everywhere_cons.1 ownKeys
    obtain ⟨-, bottom, resolvedBelow, resolvedBehind⟩ := resolved
    obtain ⟨entries, items⟩ := ihc inner resolvedBelow
    obtain ⟨entries', items'⟩ := ihs others resolvedBehind
    constructor
    · intro s H parent seen
      rw [documents, entryDrafts, isMergeKey_keyDocument key, if_neg (by simp)]
      refine Gives.congr (P := _ ∧ True ∧ _ ∧ _ ∧ True)
        (Gives.lift rfl (Gives.check ((Gives.modifyGet _).bind fun _ _ =>
        (gives_toDraft entries items bottom inner it.key).bind fun draft here =>
          (entries' s _ parent (it.key :: seen)).bind fun r there => ?_))) ?_ fun _ => id
      · exact Gives.pure (.cons here.1 there)
      · simp only [Forest.everywhere_cons, Rose.Everywhere, Forest.rootKeys_cons, List.nodup_cons,
          List.mem_cons, forall_eq_or_imp, not_or, List.contains_eq_mem, decide_eq_true_eq, true_and, and_true]
        constructor
        · rintro ⟨free, here, distinct, apart, there⟩
          exact ⟨⟨fun again => (apart _ again).1 rfl, distinct⟩, ⟨free, fun k hk => (apart k hk).2⟩,
            here.1, here.2, there⟩
        · rintro ⟨⟨once, distinct⟩, ⟨free, apart⟩, here, below, there⟩
          refine ⟨free, ⟨here, below⟩, distinct, fun k hk => ⟨?_, apart k hk⟩, there⟩
          rintro rfl
          exact once hk
    · intro s H position
      refine Gives.congr ((Gives.modifyGet _).bind fun _ _ =>
        (gives_toDraft entries items bottom inner "").bind fun _ _ =>
        (items' s _ (position + 1)).bind fun _ _ => Gives.pure trivial) ?_ fun _ => id
      simp [Forest.everywhere_cons, Rose.Everywhere, and_assoc]

/-! ## Trees -/

/-- **A tree.** The value of one of the two keys of a configuration is accepted iff it is a mapping and
accepted as a node. -/
theorem gives_treeDrafts {it : Item} {below : Forest Item} (entries : GivesEntries below) (items : GivesItems below)
    (bottom : it.form.isBottom → below = .nil) (ownKeys : below.Everywhere OwnKey)
    (object : ∀ value, it.form ≠ .scalar value)
    (key : String) :
    Gives (treeDrafts s key (it.document H (documents H below)))
      ((it.document H (documents H below)).isMapping ∧ Rose.Everywhere DistinctKeys ⟨it, below⟩)
      fun drafts => List.Forall₂ LikeEnvironment drafts.rootLabels (documents H below) := by
  have drafted := gives_toDraft (s := s) (H := H) entries items bottom ownKeys key
  have filled : (it.document H (documents H below)).isNull = false := by
    cases form : it.form with
    | scalar value => exact absurd form (object value)
    | _ => rw [Item.document, form]; rfl
  unfold treeDrafts
  rw [filled, if_neg Bool.false_ne_true]
  generalize it.document H (documents H below) = doc at drafted ⊢
  cases doc with
  | mapping line anchor es =>
    refine Gives.congr (P := Rose.Everywhere DistinctKeys ⟨it, below⟩ ∧ True)
      (drafted.bind fun draft here => Gives.pure ?_) (by simp [Document.isMapping]) fun _ => id
    exact here.2 rfl
  | _ => exact Gives.congr (Gives.throw (Q := fun _ => False)) (by simp [Document.isMapping]) fun _ => False.elim

theorem normalizeEnvironments_ok_iff (f : Forest Entry) :
    (∃ f', normalizeEnvironments f = .ok f') ↔ ∀ e ∈ f.rootLabels, BecomesEnvironment e.data := by
  induction f with
  | nil =>
    rw [Forest.rootLabels]
    exact iff_of_true ⟨_, rfl⟩ (List.forall_mem_nil _)
  | cons e cs ss _ ih =>
    rw [Forest.rootLabels, List.forall_mem_cons, ← ih, normalizeEnvironments, BecomesEnvironment]
    split
    · rename_i object
      rw [and_iff_right (Or.inl object)]
      cases normalizeEnvironments ss <;> simp [bind, Except.bind, pure, Except.pure]
    · rename_i other
      split
      · rename_i nothing
        rw [and_iff_right (Or.inr nothing)]
        cases normalizeEnvironments ss <;> simp [bind, Except.bind, pure, Except.pure]
      · rename_i held
        exact iff_of_false (by rintro ⟨_, ⟨⟩⟩) fun h => h.1.elim other held

/-- The environments of a new tree are accepted iff those of its entries can be. -/
theorem gives_environments {drafts : Forest NodeData} {entries : List (Document × Document)}
    (alike : List.Forall₂ LikeEnvironment drafts.rootLabels entries) :
    Gives (liftM (normalizeEnvironments (Tree.ofDrafts .environments drafts).top.children) : Conversion (Forest Entry))
      (∀ e ∈ entries, e.2.IsEnvironment) fun _ => True := by
  have labels : (Tree.ofDrafts .environments drafts).top.children.rootLabels.map (·.data) = drafts.rootLabels := by
    rw [← Forest.rootLabels_map]
    exact congrArg (fun r : Draft => r.children.rootLabels) (Tree.map_data_ofDrafts .environments drafts)
  have same : (∃ f', normalizeEnvironments (Tree.ofDrafts .environments drafts).top.children = .ok f') ↔
      ∀ e ∈ entries, e.2.IsEnvironment := by
    rw [normalizeEnvironments_ok_iff, ← List.forall_mem_map (f := Entry.data), labels]
    generalize drafts.rootLabels = ds at alike
    induction alike with
    | nil => simp
    | cons here _ ih =>
      rw [List.forall_mem_cons, List.forall_mem_cons]
      exact and_congr here ih
  rw [← same]
  generalize normalizeEnvironments (Tree.ofDrafts .environments drafts).top.children = y
  refine ⟨fun claimed => ?_, fun _ _ _ => trivial⟩
  cases y with
  | ok f => exact iff_of_true ⟨(f, claimed), rfl⟩ ⟨f, rfl⟩
  | error e => exact iff_of_false nofun nofun

/-! ## What was written -/

/-- Whether the keys of an object are distinct. -/
def ObjectKeys (r : Rose NodeData) : Prop := r.label.type = .object → (r.children.rootKeys NodeData.key).Nodup

instance (r : Rose NodeData) : Decidable (ObjectKeys r) :=
  inferInstanceAs (Decidable (r.label.type = .object → (r.children.rootKeys NodeData.key).Nodup))

theorem rootKeys_items (dashes : Bool) (line : Nat) (f : Forest NodeData) :
    (items dashes line f).rootKeys Item.key = f.rootKeys NodeData.key := by
  induction f generalizing line with
  | nil => rfl
  | cons d below ss _ ih => rw [items, Forest.rootKeys_cons, Forest.rootKeys_cons, ih, itemOf_key]

/-- A node with children is written as a mapping iff it is an object. -/
theorem formOf_mapping_iff {d : NodeData} {below : Forest NodeData} (some : below ≠ .nil)
    (leaf : ScalarLeaf ⟨d, below⟩) : (∃ merged, formOf d below.isEmpty = .mapping merged) ↔ d.type = .object := by
  have inner : below.isEmpty = false := Bool.eq_false_iff.2 fun none => some (isEmpty_eq_true.1 none)
  rw [inner]
  cases type : d.type with
  | object => simp [formOf, type]
  | array => simp [formOf, type]
  | _ => exact absurd (leaf (by rw [type]; rfl)) some

theorem distinctKeys_item_iff {d : NodeData} {below : Forest NodeData} (leaf : ScalarLeaf ⟨d, below⟩) (dashes : Bool)
    (line : Nat) (dashes' : Bool) (line' : Nat) :
    DistinctKeys ⟨itemOf dashes line d below, items dashes' line' below⟩ ↔ ObjectKeys ⟨d, below⟩ := by
  rw [DistinctKeys, ObjectKeys]
  simp only [itemOf_form, rootKeys_items]
  by_cases some : below = .nil
  · rw [some]
    exact iff_of_true (fun _ _ => List.nodup_nil) fun _ => List.nodup_nil
  · rw [← formOf_mapping_iff some leaf, forall_exists_index]

/-- The keys of mappings are distinct iff those of objects are. -/
theorem distinctKeys_items_iff {f : Forest NodeData} (leaves : f.Everywhere ScalarLeaf) (dashes : Bool) (line : Nat) :
    (items dashes line f).Everywhere DistinctKeys ↔ f.Everywhere ObjectKeys := by
  induction f generalizing dashes line with
  | nil => exact iff_of_true Forest.everywhere_nil Forest.everywhere_nil
  | cons d below ss ihc ihs =>
    obtain ⟨leaf, inner, others⟩ := Forest.everywhere_cons.1 leaves
    rw [items, Forest.everywhere_cons, Forest.everywhere_cons, ihc inner, ihs others]
    exact and_congr_left' (distinctKeys_item_iff leaf _ _ _ _)

theorem ownKeys_items {f : Forest NodeData} (h : f.Everywhere fun r => r.label.key ≠ mergeKey) (dashes : Bool)
    (line : Nat) : (items dashes line f).Everywhere OwnKey := by
  induction f generalizing dashes line with
  | nil => exact Forest.everywhere_nil
  | cons d below ss ihc ihs =>
    obtain ⟨key, inner, others⟩ := Forest.everywhere_cons.1 h
    rw [items]
    exact Forest.everywhere_cons.2 ⟨key, ihc inner _ _, ihs others _ _⟩

/-- Whether a node is written as nothing but an alias. -/
def IsBareAlias (r : Rose NodeData) : Prop := ∃ name type, formOf r.label r.children.isEmpty = .aliased name type

/-- Whether a node is read as an environment behind some declarations: as a scalar it has no value, as
an alias it repeats an object. -/
def ReadsAsEnvironment (H : History) (r : Rose NodeData) : Prop :=
  match formOf r.label r.children.isEmpty with
  | .aliased name _ => ∀ type ∈ H.lookup name, type = .object
  | .scalar value => value = none
  | _ => True

theorem isEnvironment_document_iff {d : NodeData} {below : Forest NodeData} (dashes : Bool) (line : Nat)
    (docs : List (Document × Document)) :
    ((itemOf dashes line d below).document ((itemOf dashes line d below).declare H) docs).IsEnvironment ↔
      ReadsAsEnvironment H ⟨d, below⟩ := by
  have form : (itemOf dashes line d below).form = formOf d below.isEmpty := rfl
  rw [Item.document, Item.declare, form, ReadsAsEnvironment]
  dsimp only
  generalize formOf d below.isEmpty = form
  cases form with
  | aliased name type =>
    show (H.lookup name).getD .object = .object ↔ ∀ type ∈ H.lookup name, type = .object
    cases H.lookup name <;> simp
  | scalar value => exact scalarBack_eq_none_iff value
  | _ => exact iff_of_true trivial trivial

theorem forall_split_cons {α : Type} {P : List α → α → Prop} {a : α} {l : List α} :
    (∀ before x after, a :: l = before ++ x :: after → P before x) ↔
      P [] a ∧ ∀ before x after, l = before ++ x :: after → P (a :: before) x := by
  constructor
  · intro h
    exact ⟨h [] a l rfl, fun before x after same => h (a :: before) x after (by rw [same]; rfl)⟩
  · rintro ⟨first, later⟩ (- | ⟨b, before⟩) x after same
    · cases same
      exact first
    · cases same
      exact later before x after rfl

/-- The documents of environments are such iff each environment is read as one behind the nodes before it. -/
theorem environments_written_iff {f : Forest NodeData}
    (fine : f.Everywhere fun r => unwritable? r.label r.children.isEmpty = none) (dashes : Bool) (line : Nat) :
    (∀ e ∈ documents H (items dashes line f), e.2.IsEnvironment) ↔
      ∀ before r after, f.roots = before ++ r :: after →
        ReadsAsEnvironment (declarations (before.flatMap Rose.preorder) ++ H) r := by
  induction f generalizing line H with
  | nil =>
    rw [items, documents, Forest.roots]
    exact iff_of_true (List.forall_mem_nil _) fun before r after none => by simp at none
  | cons d below ss _ ih =>
    obtain ⟨here, inner, others⟩ := Forest.everywhere_cons.1 fine
    rw [items, documents, List.forall_mem_cons, isEnvironment_document_iff, declare_itemOf here,
      declareAll_items inner, ih others, Forest.roots, forall_split_cons]
    refine and_congr Iff.rfl (forall₄_congr fun before r after _ => ?_)
    rw [List.flatMap_cons, declarations_append, Rose.preorder, declarations_cons d below.preorder,
      List.append_assoc, List.append_assoc]

/-- An object is written as a mapping iff it is no bare alias. -/
theorem isMapping_document_iff {d : NodeData} {below : Forest NodeData} (object : d.type = .object) (dashes : Bool)
    (line : Nat) (docs : List (Document × Document)) :
    ((itemOf dashes line d below).document H docs).isMapping ↔ ¬IsBareAlias ⟨d, below⟩ := by
  have form : (itemOf dashes line d below).form = formOf d below.isEmpty := rfl
  rw [Item.document, form, IsBareAlias]
  dsimp only
  rcases formOf_object object below.isEmpty with same | ⟨merged, same⟩ | ⟨name, same⟩
  · rw [same]
    exact iff_of_true rfl nofun
  · rw [same]
    exact iff_of_true rfl nofun
  · rw [same]
    exact iff_of_false Bool.false_ne_true fun own => own ⟨name, _, rfl⟩

/-- An object is written as something. -/
theorem isNull_document {d : NodeData} {below : Forest NodeData} (object : d.type = .object) (dashes : Bool)
    (line : Nat) (docs : List (Document × Document)) :
    ((itemOf dashes line d below).document H docs).isNull = false := by
  rw [Item.document, itemOf_form]
  rcases formOf_object object below.isEmpty with same | ⟨merged, same⟩ | ⟨name, same⟩ <;> rw [same] <;> rfl

/-- What was written can be read: nothing but the keys and the environments can be refused. -/
structure Readable (f : Forest NodeData) : Prop where
  leaves : f.Everywhere ScalarLeaf
  scannable : AllScannable false f
  ownKeys : f.Everywhere fun r => r.label.key ≠ mergeKey

/-! ## Configurations -/

/-- **A written tree.** It is accepted iff it is no bare alias and the keys of each object are distinct. -/
theorem gives_tree {d : NodeData} {below : Forest NodeData} (leaves : (Forest.cons d below .nil).Everywhere ScalarLeaf)
    (keys : below.Everywhere fun r => r.label.key ≠ mergeKey) (object : d.type = .object) (line : Nat) {line' : Nat}
    {dashes : Bool} (resolved : Resolved H (items dashes line' below)) (key : String) :
    Gives (treeDrafts s key ((itemOf false line d below).document H (documents H (items dashes line' below))))
      (¬IsBareAlias ⟨d, below⟩ ∧ Rose.Everywhere ObjectKeys ⟨d, below⟩)
      fun drafts => List.Forall₂ LikeEnvironment drafts.rootLabels (documents H (items dashes line' below)) := by
  obtain ⟨leaf, inner, -⟩ := Forest.everywhere_cons.1 leaves
  have ownKeys := ownKeys_items keys dashes line'
  obtain ⟨entries, its⟩ := gives_entries_and_items _ ownKeys resolved
  have bottom : (itemOf false line d below).form.isBottom → items dashes line' below = .nil := fun h => by
    have shape : Shape d below.isEmpty (formOf d below.isEmpty) :=
      shape_formOf fun scalar => isEmpty_eq_true.2 (leaf scalar)
    obtain rfl : below = .nil := isEmpty_eq_true.1 (shape.leaf_of_isBottom h)
    rfl
  have filled (value : Option Scalar) : (itemOf false line d below).form ≠ .scalar value := by
    rw [itemOf_form]
    rcases formOf_object object below.isEmpty with same | ⟨merged, same⟩ | ⟨name, same⟩ <;> rw [same] <;> nofun
  refine (gives_treeDrafts entries its bottom ownKeys filled key).congr ?_ fun _ => id
  rw [isMapping_document_iff object, Rose.Everywhere, Rose.Everywhere, distinctKeys_items_iff inner]
  exact and_congr_right' (and_congr_left' (distinctKeys_item_iff leaf false line dashes line'))

/-- **The two entries of a configuration.** -/
theorem gives_addEntries (it it' : Item) (key : it.key = defaultKey) (key' : it'.key = environmentsKey)
    {P P' : Prop} {Q : Forest NodeData → Prop} {doc doc' : Document} {entries : List (Document × Document)}
    (tree : ∀ key, Gives (treeDrafts s key doc) P Q)
    (tree' : ∀ key, Gives (treeDrafts s key doc') P' fun drafts =>
      List.Forall₂ LikeEnvironment drafts.rootLabels entries) :
    Gives (addEntries s .empty [(it.keyDocument, doc), (it'.keyDocument, doc')])
      (P ∧ P' ∧ ∀ e ∈ entries, e.2.IsEnvironment) fun _ => True := by
  rw [addEntries]
  refine Gives.lift (a := it.key) rfl ?_
  rw [if_pos key]
  refine (tree it.key).bind fun drafts _ => ?_
  rw [addEntries]
  refine Gives.lift (a := it'.key) rfl ?_
  rw [key', if_neg (by decide), if_pos rfl]
  refine (tree' environmentsKey).bind fun drafts' alike => ?_
  refine Gives.congr (P := _ ∧ True) ((gives_environments alike).bind fun children _ => Gives.pure trivial)
    (by simp) fun _ => id

section

variable {text : String} {line : Nat} {anchor : Option String} {source : Source} {entries : List (Document × Document)}
  (read : readDocument text = .ok (some (.mapping line anchor entries), source))

include read

theorem load_eq_addEntries : load text = (addEntries source .empty entries).run' [] := by
  rw [load, read]
  rfl

theorem load_of_readDocument : (∃ c, load text = .ok c) ↔ ∃ r, addEntries source .empty entries [] = .ok r := by
  simp only [load_eq_addEntries read, Outcome.run'_eq_ok, Prod.exists]

end

/-- The keys of a configuration are no marks of a document. -/
theorem margin_entries {d d' : NodeData} (below below' : Forest NodeData) (key : d.key = defaultKey)
    (key' : d'.key = environmentsKey) :
    ∀ e ∈ (Forest.cons d below (.cons d' below' .nil)).rootLabels, Margin 0 false e.key := by
  have unmarked {key : String} {c : Char} (head : (Quoting.scalar key).toList.head? = some c)
      (sign : c ≠ '%' ∧ c ≠ '-' ∧ c ≠ '.') : Margin 0 false key := fun _ => ⟨rfl, fun _ x hx => by
    rw [head] at hx
    cases hx
    exact sign⟩
  simp only [Forest.rootLabels, List.forall_mem_cons, key, key']
  exact ⟨unmarked rfl (by decide), unmarked rfl (by decide), List.forall_mem_nil _⟩

/-- **Written configurations.** The text of two trees is loaded iff neither is a bare alias, the keys of
each object are distinct, and each environment is read as one. -/
theorem load_written_iff {d d' : NodeData} {below below' : Forest NodeData} {lines declared : List String}
    (written : nodeLines true "" false (.cons d below (.cons d' below' .nil)) [] = .ok (lines, declared))
    (readable : Readable (.cons d below (.cons d' below' .nil))) (key : d.key = defaultKey)
    (key' : d'.key = environmentsKey) (object : d.type = .object) (object' : d'.type = .object)
    (bare : d.comment = none) :
    (∃ c, load (joinLines lines) = .ok c) ↔
      (¬IsBareAlias ⟨d, below⟩ ∧ Rose.Everywhere ObjectKeys ⟨d, below⟩) ∧
      (¬IsBareAlias ⟨d', below'⟩ ∧ Rose.Everywhere ObjectKeys ⟨d', below'⟩) ∧
      ∀ before r after, below'.roots = before ++ r :: after →
        ReadsAsEnvironment (declarations (d :: below.preorder ++ d' :: before.flatMap Rose.preorder)) r := by
  have read := readDocument_written written readable.leaves readable.scannable (by simp)
    (by simp [leadingComments, bare, commentLines]) (margin_entries below below' key key')
  have resolved := (resolved_of_nodeLines written readable.leaves (H := [])
    (fun a ha => absurd ha List.not_mem_nil) 0).1
  rw [load_of_readDocument read]
  simp only [items, documents] at resolved ⊢
  obtain ⟨-, -, inner, -, -, inner', -⟩ := resolved
  obtain ⟨leaf, leavesBelow, leaves'⟩ := Forest.everywhere_cons.1 readable.leaves
  obtain ⟨-, keys, ownKeys⟩ := Forest.everywhere_cons.1 readable.ownKeys
  obtain ⟨-, keys', -⟩ := Forest.everywhere_cons.1 ownKeys
  obtain ⟨fine, fineBelow, fine'⟩ := Forest.everywhere_cons.1 (writable_of_nodeLines written readable.leaves)
  obtain ⟨fine', fineBelow', -⟩ := Forest.everywhere_cons.1 fine'
  have tree (key : String) := gives_tree (s := .ofText (joinLines lines) [])
    (Forest.everywhere_cons.2 ⟨leaf, leavesBelow, Forest.everywhere_nil⟩) keys object
    (0 + (commentLines d.comment).length) inner key
  have tree' (key : String) := gives_tree (s := .ofText (joinLines lines) []) leaves' keys' object'
    (0 + (commentLines d.comment).length + (ownLines false d below.isEmpty (linesOf (d.type = .array) below)).length +
      (commentLines d'.comment).length) inner' key
  refine ((gives_addEntries (itemOf false _ d below) (itemOf false _ d' below') key key' tree
    tree').succeeds []).trans ?_
  rw [environments_written_iff fineBelow', declare_itemOf fine', declareAll_items fineBelow, declare_itemOf fine]
  simp only [declarations_append, declarations_cons d below.preorder,
    declarations_cons d' (List.flatMap Rose.preorder _), List.append_assoc, List.append_nil]

end LayeredConfig.Yaml
