import LayeredConfig.Proofs.Tree.Tidy
import LayeredConfig.Proofs.Yaml.Conversions

/-!
# Loaded trees are tidy

A mapping with a key twice is refused, and what a merge key adds takes no key that is there. So every
draft is tidy (`yields_drafted`), and so is every tree that is loaded, up to its root: the entries of a
document are added one after the other, and two for the same tree may give it the same key
(`uniqueKeys_load_iff`).
-/

namespace LayeredConfig.Yaml

namespace Document

/-- The keys of the entries of a mapping, merge keys apart. -/
def ownKeys (entries : List (Document × Document)) : List String :=
  (entries.filter (!·.1.isMergeKey)).filterMap (·.1.keyText.toOption)

mutual

/-- The keys that a mapping gives: its own, and those of the mappings under its merge keys. -/
def givenKeys : Document → List String
  | .mapping _ _ entries => ownKeys entries ++ inlineKeys entries
  | _ => []

/-- The keys of the mappings under merge keys. -/
def inlineKeys : List (Document × Document) → List String
  | [] => []
  | (key, value) :: entries => (if key.isMergeKey then value.givenKeys else []) ++ inlineKeys entries

end

/-- What the entries for one of the two trees give it, entry by entry. -/
def given (key : String) (entries : List (Document × Document)) : List (List String) :=
  (entries.filter (·.1.keyText.toOption == some key)).map (·.2.givenKeys)

/-- The entries of a mapping. -/
def entries : Document → List (Document × Document)
  | .mapping _ _ entries => entries
  | _ => []

end Document

instance decidableDisjoint (l l' : List String) : Decidable (l.Disjoint l') :=
  decidable_of_iff (∀ k ∈ l, k ∉ l') Iff.rfl

/-- The entries of the document that a text holds. -/
def entriesOf (text : String) : List (Document × Document) :=
  ((readDocument text).toOption.bind (·.1)).elim [] Document.entries

open Document

/-! ## Drafts -/

/-- Drafts every node of which is tidy. -/
abbrev AllTidy (f : Forest NodeData) : Prop := f.Everywhere (Shallow NodeData.TidyOver)

/-- The draft of a document under a key. -/
structure Drafted (key : String) (d : Document) (draft : Draft) : Prop where
  key : draft.label.key = key
  here : Shallow NodeData.TidyOver draft
  below : AllTidy draft.children
  keys : ∀ {line anchor entries}, d = .mapping line anchor entries →
    ∀ k, k ∈ draft.children.rootKeys (·.key) ↔ k ∈ d.givenKeys

theorem tidyOver_scalarValue (text : String) (plain : Bool) (key : String) (anchor : Option String) :
    let data : NodeData := match scalarValue text plain with
      | some value => .ofScalar key value
      | none => { key, type := .string }
    ({ data with anchor } : NodeData).TidyOver [] ∧ data.key = key := by
  cases scalarValue text plain with
  | none => exact ⟨.of_leaf nofun rfl, rfl⟩
  | some value =>
    refine ⟨.of_leaf ?_ value.valueType_isScalar, rfl⟩
    rintro _ ⟨⟩
    rfl

mutual

/-- **Nodes.** The draft of a node is tidy, and that of a mapping has the keys which it gives. -/
theorem yields_drafted (s : Source) : ∀ (d : Document) (key : String),
    Yields (toDraft s key d) (Drafted key d)
  | .scalar line anchor text plain, key => by
    rw [toDraft]
    obtain ⟨tidy, same⟩ := tidyOver_scalarValue text plain key anchor
    exact .pure ⟨same, tidy, Forest.everywhere_nil, nofun⟩
  | .alias line name type, key => by
    rw [toDraft]
    refine .pure ⟨rfl, ⟨List.nodup_nil, fun _ => rfl, ?_⟩, Forest.everywhere_nil, nofun⟩
    cases type <;> simp [NodeData.TypedOver, Forest.rootLabels, ValueType.isContainer, ValueType.isScalar]
  | .mapping line anchor entries, key => by
    rw [toDraft]
    refine .bind (yields_entries s entries key []) fun r hr => ?_
    refine .bind (yields_inline s entries r.2 hr.2.1 (hr.1 ▸ hr.2.2.1)) fun children hc => ?_
    refine .pure ⟨rfl, .of_object ?_ rfl rfl, hc.1, fun _ k => ?_⟩
    · rw [← Forest.rootKeys_eq_map_rootLabels]
      exact hc.2.1
    · rw [hc.2.2, hr.1, givenKeys, List.mem_append]
  | .sequence line anchor items, key => by
    rw [toDraft]
    refine .bind (yields_items s items 0) fun children hc => ?_
    refine .pure ⟨rfl, .of_array ?_ rfl rfl, hc.1, nofun⟩
    have count : children.rootLabels.length = items.length := by
      simpa using congrArg List.length hc.2
    rw [hc.2, count, List.range_eq_range']

theorem yields_items (s : Source) : ∀ (items : List Document) (position : Nat),
    Yields (itemDrafts s position items) fun f => AllTidy f ∧
      f.rootLabels.map (·.key) = (List.range' position items.length).map itemKey
  | [], position => by
    rw [itemDrafts]
    exact .pure ⟨Forest.everywhere_nil, rfl⟩
  | item :: items, position => by
    rw [itemDrafts]
    refine .after fun comment => .bind (yields_drafted s item "") fun draft hd =>
      .bind (yields_items s items (position + 1)) fun rest hr => .pure ⟨?_, ?_⟩
    · exact Forest.everywhere_cons.2 ⟨hd.here.congr rfl rfl, hd.below, hr.1⟩
    · rw [Forest.rootLabels, List.map_cons, hr.2, List.length_cons, List.range'_succ, List.map_cons]

theorem yields_entries (s : Source) : ∀ (entries : List (Document × Document)) (parent : String)
    (seen : List String),
    Yields (entryDrafts s parent seen entries) fun r => r.2.rootKeys (·.key) = ownKeys entries ∧
      AllTidy r.2 ∧ (ownKeys entries).Nodup ∧ seen.Disjoint (ownKeys entries)
  | [], parent, seen => by
    rw [entryDrafts]
    exact .pure ⟨rfl, Forest.everywhere_nil, List.nodup_nil, List.disjoint_nil_right seen⟩
  | (key, value) :: entries, parent, seen => by
    rw [entryDrafts]
    split
    · rename_i merge
      have same : ownKeys ((key, value) :: entries) = ownKeys entries := by simp [ownKeys, merge]
      rw [same]
      exact .after fun names => .bind (yields_entries s entries parent seen) fun r hr => .pure hr
    · rename_i own
      refine .bind (Q := fun name => ownKeys ((key, value) :: entries) = name :: ownKeys entries)
        (.lift fun name text => by simp [ownKeys, own, text, Except.toOption]) fun name same => ?_
      refine .check fun new => .after fun comment => .bind (yields_drafted s value name) fun draft hd =>
        .bind (yields_entries s entries parent (name :: seen)) fun r hr => .pure ?_
      obtain ⟨keys, tidy, distinct, apart⟩ := hr
      rw [List.disjoint_cons_left] at apart
      rw [same, List.nodup_cons, List.disjoint_cons_right]
      refine ⟨?_, Forest.everywhere_cons.2 ⟨hd.here.congr rfl rfl, hd.below, tidy⟩, ⟨apart.1, distinct⟩,
        by simpa using new, apart.2⟩
      rw [Forest.rootKeys_cons, keys, hd.key]

theorem yields_inline (s : Source) : ∀ (entries : List (Document × Document)) (own : Forest NodeData),
    AllTidy own → (own.rootKeys (·.key)).Nodup →
    Yields (inlineDrafts s own entries) fun f => AllTidy f ∧ (f.rootKeys (·.key)).Nodup ∧
      ∀ k, k ∈ f.rootKeys (·.key) ↔ k ∈ own.rootKeys (·.key) ∨ k ∈ inlineKeys entries
  | [], own, ho, distinct => by
    rw [inlineDrafts]
    exact .pure ⟨ho, distinct, fun k => by simp [inlineKeys]⟩
  | (key, .mapping line anchor inner) :: entries, own, ho, distinct => by
    rw [inlineDrafts, inlineKeys]
    split
    · refine .bind (yields_drafted s (.mapping line anchor inner) "") fun draft hd => ?_
      refine (yields_inline s entries _ (ho.addMissing hd.below)
        (Forest.nodup_rootKeys_addMissing distinct _)).mono fun f hf => ⟨hf.1, hf.2.1, fun k => ?_⟩
      rw [hf.2.2, Forest.mem_rootKeys_addMissing, hd.keys rfl, List.mem_append, or_assoc]
    · exact yields_inline s entries own ho distinct
  | (key, .scalar _ _ _ _) :: entries, own, ho, distinct | (key, .alias _ _ _) :: entries, own, ho, distinct
  | (key, .sequence _ _ _) :: entries, own, ho, distinct => by
    simp only [inlineDrafts, inlineKeys, givenKeys, ite_self]
    exact yields_inline s entries own ho distinct

end

/-- The drafts of one of the two trees have the keys that the document gives. -/
theorem yields_treeDrafts_tidy (s : Source) (key : String) (value : Document) :
    Yields (value.treeDrafts s key) fun f => AllTidy f ∧ (f.rootKeys (·.key)).Nodup ∧
      ∀ k, k ∈ f.rootKeys (·.key) ↔ k ∈ value.givenKeys := by
  unfold treeDrafts
  split
  · rename_i null
    refine .pure ⟨Forest.everywhere_nil, List.nodup_nil, fun k => ?_⟩
    cases value with
    | scalar => simp [givenKeys]
    | _ => cases null
  · cases value with
    | mapping line anchor entries =>
      refine .bind (yields_drafted s _ key) fun draft hd => .pure ⟨hd.below, ?_, hd.keys rfl⟩
      rw [Forest.rootKeys_eq_map_rootLabels]
      exact hd.here.keys
    | _ => exact nofun

/-! ## Environments -/

/-- Environments that are made objects are as tidy as they were, under their keys. -/
theorem tidy_normalizeEnvironments {f f' : Forest Entry} (done : normalizeEnvironments f = .ok f')
    (hf : AllTidy (f.map (·.data))) :
    AllTidy (f'.map (·.data)) ∧ f'.rootKeys (·.data.key) = f.rootKeys (·.data.key) ∧
      ∀ e ∈ f'.rootLabels, e.data.type = .object := by
  induction f generalizing f' with
  | nil =>
    cases done
    exact ⟨hf, rfl, List.forall_mem_nil _⟩
  | cons e cs ss _ ih =>
    obtain ⟨here, inner, others⟩ := Forest.everywhere_cons.1 hf
    rw [normalizeEnvironments] at done
    split at done
    · rename_i object
      obtain ⟨rest, normal, same⟩ := Outcome.bind_eq_ok.1 done
      cases same
      obtain ⟨tidy, keys, objects⟩ := ih normal others
      exact ⟨Forest.everywhere_cons.2 ⟨here, inner, tidy⟩, congrArg (e.data.key :: ·) keys,
        List.forall_mem_cons.2 ⟨object, objects⟩⟩
    · split at done
      · rename_i nothing
        obtain ⟨rest, normal, same⟩ := Outcome.bind_eq_ok.1 done
        cases same
        obtain ⟨tidy, keys, objects⟩ := ih normal others
        exact ⟨Forest.everywhere_cons.2
            ⟨.of_object here.keys rfl (Option.isNone_iff_eq_none.1 nothing.1), inner, tidy⟩,
          congrArg (e.data.key :: ·) keys, List.forall_mem_cons.2 ⟨rfl, objects⟩⟩
      · cases done

/-! ## Entries one after the other -/

/-- Keys that are there, and those that come, are all different: no key is there twice, and none comes
that is there or came before. -/
structure Fresh (taken : List String) (coming : List (List String)) : Prop where
  distinct : taken.Nodup
  new : ∀ keys ∈ coming, taken.Disjoint keys
  apart : coming.Pairwise List.Disjoint

theorem fresh_nil_left {coming : List (List String)} :
    Fresh [] coming ↔ coming.Pairwise List.Disjoint :=
  ⟨Fresh.apart, fun apart => ⟨List.nodup_nil, fun _ _ => List.disjoint_nil_left _, apart⟩⟩

theorem fresh_nil_right {taken : List String} : Fresh taken [] ↔ taken.Nodup :=
  ⟨Fresh.distinct, fun distinct => ⟨distinct, List.forall_mem_nil _, .nil⟩⟩

/-- The next keys are taken. -/
theorem fresh_append {taken added keys : List String} {coming : List (List String)}
    (distinct : added.Nodup) (same : ∀ k, k ∈ added ↔ k ∈ keys) :
    Fresh (taken ++ added) coming ↔ Fresh taken (keys :: coming) := by
  have disjoint (l : List String) : l.Disjoint added ↔ l.Disjoint keys := by
    simp only [List.Disjoint, same]
  have disjoint' (l : List String) : added.Disjoint l ↔ keys.Disjoint l := by
    rw [List.disjoint_comm, disjoint, List.disjoint_comm]
  constructor
  · rintro ⟨all, new, apart⟩
    obtain ⟨taken, -, between⟩ := List.nodup_append'.1 all
    simp only [List.disjoint_append_left, disjoint'] at new
    exact ⟨taken, List.forall_mem_cons.2 ⟨(disjoint _).1 between, fun l hl => (new l hl).1⟩,
      List.pairwise_cons.2 ⟨fun l hl => (new l hl).2, apart⟩⟩
  · rintro ⟨taken, new, apart⟩
    obtain ⟨between, new⟩ := List.forall_mem_cons.1 new
    obtain ⟨later, apart⟩ := List.pairwise_cons.1 apart
    refine ⟨List.nodup_append'.2 ⟨taken, distinct, (disjoint _).2 between⟩, fun l hl => ?_, apart⟩
    rw [List.disjoint_append_left, disjoint']
    exact ⟨new l hl, later l hl⟩

theorem given_cons (name : String) (key value : Document) (entries : List (Document × Document)) :
    given name ((key, value) :: entries) =
      if key.keyText = .ok name then value.givenKeys :: given name entries else given name entries := by
  unfold given
  rw [List.filter_cons]
  simp only [beq_iff_eq, Outcome.toOption_eq_some]
  split <;> rfl

/-- Both trees are tidy below their roots, and the environments are objects. -/
structure TidyTrees (c : Configuration) : Prop where
  default : c.default.TidyBelow
  environments : c.environments.TidyBelow
  objects : ∀ e ∈ c.environments.top.children.rootLabels, e.data.type = .object

theorem tidyTrees_empty : TidyTrees .empty where
  default := ⟨rfl, rfl, Forest.everywhere_nil⟩
  environments := ⟨rfl, rfl, Forest.everywhere_nil⟩
  objects := List.forall_mem_nil _

/-- The configuration `c'` is tidy below its roots. No key is right below a root of it twice iff none is
in `c`, and the entries bring none that is there or came before. -/
structure Extended (c : Configuration) (entries : List (Document × Document)) (c' : Configuration) : Prop where
  tidy : TidyTrees c'
  default : c'.default.topKeys.Nodup ↔ Fresh c.default.topKeys (given defaultKey entries)
  environments : c'.environments.topKeys.Nodup ↔
    Fresh c.environments.topKeys (given environmentsKey entries)

theorem TidyTrees.extended {c : Configuration} (hc : TidyTrees c) : Extended c [] c :=
  ⟨hc, fresh_nil_right.symm, fresh_nil_right.symm⟩

/-- **Entries.** A tidy configuration is extended by the entries of a document. -/
theorem yields_extended (s : Source) (entries : List (Document × Document)) {c : Configuration}
    (hc : TidyTrees c) : Yields (addEntries s c entries) (Extended c entries) := by
  induction entries generalizing c with
  | nil =>
    rw [addEntries]
    exact .pure hc.extended
  | cons e entries ih =>
    obtain ⟨key, value⟩ := e
    rw [addEntries]
    refine .bind (.lift fun name text => text) fun name text => ?_
    split
    · rename_i isDefault
      refine .bind (yields_treeDrafts_tidy s _ value) fun drafts ⟨tidy, distinct, same⟩ => ?_
      obtain ⟨grown, keys⟩ := hc.default.graftAll_root tidy
      have next : TidyTrees { c with default := (c.default.graftAll c.default.root drafts).1 } :=
        ⟨grown, hc.environments, hc.objects⟩
      refine (ih next).mono fun c' h => ⟨h.tidy, h.default.trans ?_, h.environments.trans ?_⟩
      · rw [given_cons, if_pos (isDefault ▸ text), keys]
        exact fresh_append distinct same
      · rw [given_cons, if_neg]
        rw [text, isDefault]
        decide
    · rename_i other
      split
      · rename_i isEnvironments
        refine .bind (yields_treeDrafts_tidy s _ value) fun drafts ⟨tidy, distinct, same⟩ => ?_
        obtain ⟨grown, keys⟩ := hc.environments.graftAll_root tidy
        generalize (c.environments.graftAll c.environments.root drafts).1 = envs at grown keys ⊢
        refine .bind (.lift fun children ok => ok) fun children normal => ?_
        obtain ⟨below, kept, objects⟩ := tidy_normalizeEnvironments normal grown.below
        have next : TidyTrees { c with environments := { envs with top := { envs.top with children } } } :=
          ⟨hc.default, ⟨grown.object, grown.empty, below⟩, objects⟩
        refine (ih next).mono fun c' h => ⟨h.tidy, h.default.trans ?_, h.environments.trans ?_⟩
        · rw [given_cons, if_neg]
          rw [text]
          exact fun same => other (Except.ok.inj same)
        · rw [given_cons, if_pos (isEnvironments ▸ text), Tree.topKeys, kept, ← Tree.topKeys, keys]
          exact fresh_append distinct same
      · exact .throw

/-! ## Configurations -/

theorem entriesOf_eq {text : String} {root : Option Document} {source : Source}
    (read : readDocument text = .ok (root, source)) : entriesOf text = root.elim [] Document.entries := by
  unfold entriesOf
  rw [read]
  rfl

/-- Loading extends the empty configuration by the entries of the document. -/
theorem extended_of_load {text : String} {c : Configuration} (loaded : load text = .ok c) :
    Extended .empty (entriesOf text) c := by
  unfold load at loaded
  obtain ⟨⟨root, source⟩, read, loaded⟩ := Outcome.bind_eq_ok.1 loaded
  rw [entriesOf_eq read]
  cases root with
  | none =>
    cases loaded
    exact tidyTrees_empty.extended
  | some d =>
    dsimp only at loaded
    split at loaded
    · rename_i null
      cases loaded
      cases d with
      | scalar => exact tidyTrees_empty.extended
      | _ => cases null
    · cases d with
      | mapping line anchor entries =>
        obtain ⟨claimed, done⟩ := Outcome.run'_eq_ok.1 loaded
        exact yields_extended source entries tidyTrees_empty [] (c, claimed) done
      | _ => cases loaded

/-- The items of loaded arrays are keyed by their positions. -/
theorem numbered_of_load {text : String} {c : Configuration} (loaded : load text = .ok c) :
    c.default.Numbered ∧ c.environments.Numbered :=
  have tidy := (extended_of_load loaded).1
  ⟨tidy.default.numbered, tidy.environments.numbered⟩

/-- **Loaded configurations are tidy.** Whatever text is accepted: in both trees the items of every array
are keyed by their positions and every node holds what its type says, and the environments are objects.
Keys are distinct everywhere iff no two entries of the document for the same tree give it the same key. -/
theorem tidy_of_load {text : String} {c : Configuration} (loaded : load text = .ok c) :
    (c.default.Numbered ∧ c.environments.Numbered) ∧
      (c.default.WellTyped ∧ c.environments.WellTyped) ∧
      (∀ e ∈ c.environments.top.children.rootLabels, e.data.type = .object) ∧
      (c.UniqueKeys ↔ (given defaultKey (entriesOf text)).Pairwise List.Disjoint ∧
        (given environmentsKey (entriesOf text)).Pairwise List.Disjoint) := by
  obtain ⟨tidy, default, environments⟩ := extended_of_load loaded
  refine ⟨⟨tidy.default.numbered, tidy.environments.numbered⟩,
    ⟨tidy.default.wellTyped, tidy.environments.wellTyped⟩, tidy.objects, ?_⟩
  refine and_congr (tidy.default.uniqueKeys_iff.trans ?_) (tidy.environments.uniqueKeys_iff.trans ?_)
  · exact default.trans fresh_nil_left
  · exact environments.trans fresh_nil_left

/-- A document that gives the environments twice, each time with another key. A merge key brings one key
that the mapping has and one that it has not, and `prod` is empty. -/
def givenTwice : String :=
  "default:\n  <<: \x7ba: 2, b: [x]\x7d\n  a: 1\nenvironments:\n  prod:\nenvironments:\n  dev: \x7b\x7d\n"

theorem tidy_of_load_givenTwice : ∃ c, load givenTwice = .ok c ∧ c.environmentNames = ["prod", "dev"] ∧
    (c.default.Numbered ∧ c.environments.Numbered) ∧ (c.default.WellTyped ∧ c.environments.WellTyped) ∧
      (∀ e ∈ c.environments.top.children.rootLabels, e.data.type = .object) ∧ c.UniqueKeys := by
  have names : (load givenTwice).toOption.map (·.environmentNames) = some ["prod", "dev"] := by
    decide +kernel
  obtain ⟨c, loaded, names⟩ := Option.map_eq_some_iff.1 names
  rw [Outcome.toOption_eq_some] at loaded
  obtain ⟨items, typed, objects, keys⟩ := tidy_of_load loaded
  exact ⟨c, loaded, names, items, typed, objects, keys.2 (by decide +kernel)⟩

/-- A document that gives the default tree twice, each time with the same key. -/
def repeated : String := "default:\n  a: 1\ndefault:\n  a: 2\n"

/-- The same key in one mapping is refused, in two entries for one tree it is not. -/
theorem loaded_with_two_properties_of_one_key :
    load "default:\n  a: 1\n  a: 2\n" = .error (.duplicateKey "a" defaultKey) ∧
      ∃ c, load repeated = .ok c ∧ ¬c.UniqueKeys := by
  let both : Forest NodeData :=
    .cons (.ofScalar "a" (.number (.int 1))) .nil (.cons (.ofScalar "a" (.number (.int 2))) .nil .nil)
  refine ⟨by decide +kernel, ⟨.ofDrafts .default both, .empty .environments⟩, ?_, ?_⟩
  · decide +kernel
  · decide +kernel

end LayeredConfig.Yaml
