import LayeredConfig.Proofs.Yaml.FoundComments
import LayeredConfig.Proofs.Yaml.Loaded
import LayeredConfig.Proofs.Yaml.Markers

/-!
# Comments come back on their nodes

A saved configuration loads with its comments, save those around the dashes of some items
(`comments_of_load_emit`). An item whose block begins with a dash, a line below its own, is taken for the one
that this dash makes: it is given the comment of the first node of its block. So all comments come back iff no
such item and no such node has one (`comments_of_load_emit_iff`).
-/

namespace LayeredConfig

/-- The data without its comment. -/
def NodeData.uncommented (d : NodeData) : NodeData := { d with comment := none }

/-- The tree without its comments. -/
def Tree.uncommented (t : Tree) : Tree := { t with top := t.top.map fun e => { e with data := e.data.uncommented } }

namespace Configuration

/-- The configuration without its comments. -/
def uncommented (c : Configuration) : Configuration := ⟨c.default.uncommented, c.environments.uncommented⟩

/-- The keys of both trees with the comments that stand under them. -/
def comments (c : Configuration) : Rose (String × Option String) × Rose (String × Option String) :=
  (c.default.top.map fun e => Yaml.commentOf e.data, c.environments.top.map fun e => Yaml.commentOf e.data)

/-- The comments with which the configuration is read back. -/
def foundComments (c : Configuration) : Rose (String × Option String) × Rose (String × Option String) :=
  (⟨(defaultKey, none), Yaml.found false false (c.default.top.children.map (·.data))⟩,
    ⟨(environmentsKey, none), Yaml.found false false (c.environments.top.children.map (·.data))⟩)

end Configuration

namespace Yaml

open Document

variable {s : Source} {H H' : History} {line : Nat} {claimed : Claimed}

/-- **A tree.** What is below the value of one of the two keys is found. -/
theorem finds_treeDrafts (plain : s.blocks = []) {d : NodeData} {below ss : Forest NodeData}
    (h : Tellable false (.cons d below ss)) (object : d.type = .object)
    (stands : s.Stands line false d below) (clear : s.Clear claimed line) (name : String) :
    YieldsFrom claimed (treeDrafts s name ((itemOf false line d below).document H
      (documents H' (items (d.type = .array) (childLine false line d below) below))))
      (Finds (found false false below)
        (line + (ownLines false d below.isEmpty (linesOf (d.type = .array) below)).length)) := by
  obtain ⟨entries, its⟩ := finds_entries_and_items plain below
  have drafted := finds_toDraft H H' h.scannable.1 h.inner h.key (Forest.everywhere_cons.1 h.items).1 entries its
    stands clear name
  have mapping : decide (d.type = .array) = false := by rw [object]; rfl
  rw [mapping] at drafted ⊢
  unfold treeDrafts
  rw [isNull_document object, if_neg Bool.false_ne_true]
  generalize (itemOf false line d below).document H (documents H' (items false (childLine false line d below) below)) =
    doc at drafted ⊢
  cases doc with
  | mapping => exact drafted.bind fun draft claimed' hd => .pure hd.2
  | _ => intro r ok; cases ok

theorem map_commentOf_asObjects (f : Forest NodeData) : (asObjects f).map commentOf = f.map commentOf := by
  induction f with
  | nil => rfl
  | cons d below rest _ ih => rw [asObjects, Forest.map, Forest.map, ih]; rfl

/-- **The two entries of a configuration.** What is below their values is found in the trees, whose roots have no
comment. -/
theorem finds_addEntries (it it' : Item) (key : it.key = defaultKey) (key' : it'.key = environmentsKey)
    {doc doc' : Document} {f f' : Forest (String × Option String)} {P : Claimed → Prop}
    (tree : ∀ name, YieldsFrom claimed (treeDrafts s name doc) fun drafts claimed' =>
      drafts.map commentOf = f ∧ P claimed')
    (tree' : ∀ name claimed', P claimed' →
      YieldsFrom claimed' (treeDrafts s name doc') fun drafts _ => drafts.map commentOf = f') :
    YieldsFrom claimed (addEntries s .empty [(it.keyDocument, doc), (it'.keyDocument, doc')]) fun c _ =>
      c.comments = (⟨(defaultKey, none), f⟩, ⟨(environmentsKey, none), f'⟩) := by
  rw [addEntries]
  refine .lift fun name text => ?_
  cases text
  rw [if_pos key]
  refine (tree it.key).bind fun drafts claimed' hd => ?_
  rw [addEntries]
  refine .lift fun name text => ?_
  cases text
  rw [key', if_neg (by decide), if_pos rfl]
  refine (tree' environmentsKey claimed' hd.2).bind fun drafts' claimed'' hd' => ?_
  refine .lift fun children normal => .pure ?_
  have default : (Tree.ofDrafts .default drafts).top.map (fun e => commentOf e.data) = ⟨(defaultKey, none), f⟩ := by
    have data := congrArg (Rose.map commentOf) (Tree.map_data_ofDrafts .default drafts)
    rw [Rose.map_map] at data
    exact data.trans (congrArg (Rose.mk (defaultKey, none)) hd.1)
  have environments : children.map (fun e => commentOf e.data) = f' := by
    have data := congrArg (Forest.map commentOf) (map_data_normalizeEnvironments normal)
    have drafted : (Tree.ofDrafts .environments drafts').top.children.map (·.data) = drafts' :=
      congrArg Rose.children (Tree.map_data_ofDrafts .environments drafts')
    rw [Forest.map_map, map_commentOf_asObjects] at data
    exact data.trans ((congrArg (Forest.map commentOf) drafted).trans hd')
  exact Prod.ext default (congrArg (Rose.mk (environmentsKey, none)) environments)

/-- The comments that are found in a configuration that was written. -/
theorem comments_of_load_written {d d' : NodeData} {below below' : Forest NodeData} {lines declared : List String}
    {c : Configuration}
    (written : nodeLines true "" false (.cons d below (.cons d' below' .nil)) [] = .ok (lines, declared))
    (readable : Readable (.cons d below (.cons d' below' .nil)))
    (h : Tellable false (.cons d below (.cons d' below' .nil))) (key : d.key = defaultKey)
    (key' : d'.key = environmentsKey) (object : d.type = .object) (object' : d'.type = .object)
    (bare : d.comment = none) (bare' : d'.comment = none) (loaded : load (joinLines lines) = .ok c) :
    c.comments = (⟨(defaultKey, none), found false false below⟩,
      ⟨(environmentsKey, none), found false false below'⟩) := by
  have read := readDocument_written written readable.leaves readable.scannable (by simp)
    (by simp [leadingComments, bare, commentLines]) (margin_entries below below' key key')
  rw [load_eq_addEntries read, Outcome.run'_eq_ok] at loaded
  obtain ⟨claimed, entered⟩ := loaded
  obtain rfl := lines_eq written
  have shows := Source.shows_ofText (linesOf_ne_nil h.scannable (by simp)) (straight_linesOf h.scannable)
  have plain : (Source.ofText (joinLines (linesOf false (.cons d below (.cons d' below' .nil)))) []).blocks = [] := rfl
  generalize Source.ofText (joinLines (linesOf false (.cons d below (.cons d' below' .nil)))) [] = s at *
  obtain ⟨-, stands, others⟩ := h.begins shows.begins
  obtain ⟨-, stands', -⟩ := h.siblings.begins others.begins
  have fresh : s.Clear [] (0 + (commentLines d.comment).length) := by
    rw [bare]
    exact ⟨List.forall_mem_nil _, rfl⟩
  refine finds_addEntries (itemOf false _ d below) (itemOf false _ d' below') key key'
    (fun name => finds_treeDrafts plain h object stands fresh name)
    (fun name claimed' above => (finds_treeDrafts plain h.siblings object' stands' ?_ name).mono fun _ _ => And.left)
    (c, claimed) entered
  rw [bare']
  exact h.clear stands above

/-! ## Configurations -/

variable {c c' : Configuration}

theorem map_data_uncommented (t : Tree) :
    t.uncommented.top.map (·.data) = (t.top.map (·.data)).map NodeData.uncommented := by
  rw [Tree.uncommented, Rose.map_map, Rose.map_map]
  rfl

/-- What holds of every node without its comment. -/
theorem everywhere_uncommented {P : Draft → Prop} :
    c.uncommented.Everywhere P ↔ c.Everywhere fun r => P (r.map NodeData.uncommented) := by
  have tree (t : Tree) : (t.uncommented.top.map (·.data)).Everywhere P ↔
      (t.top.map (·.data)).Everywhere fun r => P (r.map NodeData.uncommented) := by
    rw [map_data_uncommented]
    exact Rose.everywhere_map
  exact and_congr (tree c.default) (tree c.environments)

/-- What comments are set on is as orderly as without them. -/
theorem fits_of_uncommented (orderly : c.uncommented.Orderly IsName) : c.Everywhere (Rose.Fits IsName) := by
  have leaf (r : Draft) (h : (r.map NodeData.uncommented).Fits IsName) : r.Fits IsName :=
    ⟨h.names, fun scalar => Forest.rootLabels_eq_nil.1 (Rose.children_map_eq_nil.1 (h.leaf scalar))⟩
  have same := everywhere_uncommented.1 (fits_of_orderly orderly)
  exact ⟨same.1.mono leaf, same.2.mono leaf⟩

theorem itemsNumbered (numbered : c.default.Numbered ∧ c.environments.Numbered) : c.Everywhere ItemsNumbered :=
  ⟨Tree.numbered_iff_data.1 numbered.1, Tree.numbered_iff_data.1 numbered.2⟩

theorem numbered_of_uncommented (numbered : c.uncommented.default.Numbered ∧ c.uncommented.environments.Numbered) :
    c.Everywhere ItemsNumbered := by
  have same (r : Draft) (h : ItemsNumbered (r.map NodeData.uncommented)) : ItemsNumbered r := fun array => by
    have keys := h array
    rw [Forest.rootKeys_eq_map_rootLabels, Rose.map, Forest.rootLabels_map, List.map_map, Forest.roots_map,
      List.length_map] at keys
    rw [Forest.rootKeys_eq_map_rootLabels]
    exact keys
  have all := everywhere_uncommented.1 (itemsNumbered numbered)
  exact ⟨all.1.mono same, all.2.mono same⟩

theorem comments_eq (c : Configuration) :
    c.comments = ((c.default.top.map (·.data)).map commentOf, (c.environments.top.map (·.data)).map commentOf) := by
  rw [Configuration.comments, Rose.map_map, Rose.map_map]
  rfl

/-- All comments are found iff the items keep those around their dashes. -/
theorem foundComments_eq_iff (orderly : c.uncommented.Orderly IsName)
    (roots : c.default.top.label.data.comment = none ∧ c.environments.top.label.data.comment = none) :
    c.foundComments = c.comments ↔ c.Everywhere ItemsKeep := by
  have tree {name : String} {t : Tree} (key : t.top.label.data.key = name) (object : t.top.label.data.type = .object)
      (bare : t.top.label.data.comment = none) :
      ⟨(name, none), found false false (t.top.children.map (·.data))⟩ = (t.top.map (·.data)).map commentOf ↔
        (t.top.map (·.data)).Everywhere ItemsKeep := by
    have label : (name, none) = commentOf t.top.label.data := by rw [commentOf, key, bare]
    have mapping (array : t.top.label.data.type = .array) : False := by cases object.symm.trans array
    rw [Rose.map, Rose.map, Rose.mk.injEq, and_iff_right label, found_eq_iff, Rose.Everywhere]
    simp only [Bool.false_eq_true, false_implies, and_true]
    exact (and_iff_right fun array => (mapping array).elim).symm
  rw [comments_eq, Configuration.foundComments, Prod.mk.injEq]
  exact and_congr (tree orderly.default.root.1 orderly.default.root.2 roots.1)
    (tree orderly.environments.root.1 orderly.environments.root.2 roots.2)

/-- A saved configuration loads with the comments that are found in it. -/
theorem comments_of_reload {out : String} (orderly : c.uncommented.Orderly IsName)
    (numbered : c.Everywhere ItemsNumbered) (notes : c.Everywhere fun r => ∀ text ∈ r.label.comment, Text.IsNote text)
    (legible : c.Everywhere fun r => Legible r.label) (inked : c.Everywhere fun r => keyInk r.label.key ≠ '#')
    (saved : emit c = .ok out) (reloaded : load out = .ok c') : c'.comments = c.foundComments := by
  obtain ⟨lines, declared, written, rfl⟩ := emit_eq_ok saved
  have readable : Readable (entries c) := readable_entries (fits_of_uncommented orderly) legible
  have tellable : Tellable false (entries c) :=
    { scannable := readable.scannable
      inked := everywhere_entries inked fun _ _ h => h
      notes := everywhere_entries notes fun _ _ _ => nofun
      ownKeys := readable.ownKeys
      items := everywhere_entries numbered fun _ _ h => h }
  exact comments_of_load_written written readable tellable orderly.default.root.1 orderly.environments.root.1
    orderly.default.root.2 orderly.environments.root.2 rfl rfl reloaded

/-- **What comes back.** A configuration that is as a text loads but for its comments is loaded again with those that
are found in it. -/
theorem comments_of_load_emit {text out : String} (loaded : load text = .ok c.uncommented)
    (remarks : c.Everywhere fun r => ∀ text ∈ r.label.comment, Text.IsRemark text)
    (legible : c.Everywhere fun r => Legible r.label) (inked : c.Everywhere fun r => keyInk r.label.key ≠ '#')
    (saved : emit c = .ok out) (reloaded : load out = .ok c') : c'.comments = c.foundComments := by
  have note (r : Draft) (h : ∀ text ∈ r.label.comment, Text.IsRemark text) :
      ∀ text ∈ r.label.comment, Text.IsNote text := fun text ht => (h text ht).isNote
  exact comments_of_reload (orderly_load loaded) (numbered_of_uncommented (numbered_of_load loaded))
    ⟨remarks.1.mono note, remarks.2.mono note⟩ legible inked saved reloaded

/-- **Comments come back on their nodes** iff no item loses one at its dash. Let a configuration be as a text loads but
for its comments, which are lines of printable characters below the roots, and let its texts be read as they were
written. When it is saved and loads again, every node of the two trees has the comment it had, exactly when each item
whose block begins with a dash has a first node without comment below it and, if it has an anchor, no comment itself. -/
theorem comments_of_load_emit_iff {text out : String} (loaded : load text = .ok c.uncommented)
    (roots : c.default.top.label.data.comment = none ∧ c.environments.top.label.data.comment = none)
    (remarks : c.Everywhere fun r => ∀ text ∈ r.label.comment, Text.IsRemark text)
    (legible : c.Everywhere fun r => Legible r.label) (inked : c.Everywhere fun r => keyInk r.label.key ≠ '#')
    (saved : emit c = .ok out) (reloaded : load out = .ok c') :
    c'.comments = c.comments ↔ c.Everywhere ItemsKeep := by
  rw [comments_of_load_emit loaded remarks legible inked saved reloaded]
  exact foundComments_eq_iff (orderly_load loaded) roots

/-- An array of an object and an array, with comments of either. -/
def commentedItems : Configuration where
  default := .ofDrafts .default (.cons { key := "l", type := .array, comment := some "a" }
    (.cons { key := "[0]", comment := some "b\nc" }
      (.cons { NodeData.ofScalar "k" (.number (.int 1)) with comment := some "d" } .nil .nil)
      (.cons { key := "[1]", type := .array, comment := some "e" }
        (.cons (.ofScalar "[0]" (.number (.int 2))) .nil
          (.cons { NodeData.ofScalar "[1]" (.number (.int 3)) with comment := some "f" } .nil .nil)) .nil)) .nil)
  environments := .empty .environments

theorem comments_of_load_emit_commentedItems : ∃ out c',
    load "default:\n  l:\n    - k: 1\n    - [2, 3]\n" = .ok commentedItems.uncommented ∧
    (commentedItems.default.top.label.data.comment = none ∧ commentedItems.environments.top.label.data.comment = none) ∧
    (commentedItems.Everywhere fun r => ∀ text ∈ r.label.comment, Text.IsRemark text) ∧
    (commentedItems.Everywhere fun r => Legible r.label) ∧
    (commentedItems.Everywhere fun r => keyInk r.label.key ≠ '#') ∧
    emit commentedItems = .ok out ∧ load out = .ok c' ∧
    (c'.comments = commentedItems.comments ↔ commentedItems.Everywhere ItemsKeep) ∧
    commentedItems.Everywhere ItemsKeep := by
  let out := "default:\n  # a\n  l:\n    # b\n    # c\n    -\n      # d\n      k: 1\n" ++
    "    # e\n    - - 2\n      # f\n      - 3\nenvironments: \x7b\x7d\n"
  have bare : load "default:\n  l:\n    - k: 1\n    - [2, 3]\n" = .ok commentedItems.uncommented := by decide +kernel
  have roots : commentedItems.default.top.label.data.comment = none ∧
      commentedItems.environments.top.label.data.comment = none := by decide
  have remarks : commentedItems.Everywhere fun r => ∀ text ∈ r.label.comment, Text.IsRemark text := by decide +kernel
  have legible : commentedItems.Everywhere fun r => Legible r.label := by decide +kernel
  have inked : commentedItems.Everywhere fun r => keyInk r.label.key ≠ '#' := by decide +kernel
  have saved : emit commentedItems = .ok out := by decide +kernel
  have reloaded : load out = .ok commentedItems := by decide +kernel
  exact ⟨out, commentedItems, bare, roots, remarks, legible, inked, saved, reloaded,
    comments_of_load_emit_iff bare roots remarks legible inked saved reloaded, by decide +kernel⟩

/-- An array of an array of one number, with a comment of the one and of the other item. -/
def nested (outer inner : Option String) : Configuration where
  default := .ofDrafts .default (.cons { key := "l", type := .array }
    (.cons { key := "[0]", type := .array, comment := outer }
      (.cons { NodeData.ofScalar "[0]" (.number (.int 1)) with comment := inner } .nil .nil) .nil) .nil)
  environments := .empty .environments

/-- The comment of the inner item comes back on the outer one. -/
theorem comment_on_another_item :
    load "default:\n  l:\n    - - 1\n" = .ok (nested none (some "one")).uncommented ∧ Text.IsRemark "one" ∧
      ∃ out, emit (nested none (some "one")) = .ok out ∧ load out = .ok (nested (some "one") none) ∧
        (nested (some "one") none).comments ≠ (nested none (some "one")).comments :=
  ⟨by decide +kernel, by decide +kernel, "default:\n  l:\n    -\n      # one\n      - 1\nenvironments: \x7b\x7d\n",
    by decide +kernel, by decide +kernel, by decide +kernel⟩

end Yaml

end LayeredConfig
