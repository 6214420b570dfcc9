import LayeredConfig.Proofs.Compile.KeysAndValues

/-!
# Trees of settings put over one another

`Rose.overlaid` puts one tree of keys and values over another: objects key by key, and everything else as
a whole (`Forest.roots_overlaid`).

A tree *sets* a path of keys if it has something there, or something other than an object on the way,
which takes the place of all that is below. What a path leads to in several trees is decided by the last
one that sets it (`Rose.setting?_foldl_of_not_sets`, `Rose.content?_foldl_of_sets`,
`Rose.setting?_foldl_of_sets`).
-/

namespace LayeredConfig

/-! ## Overlaid settings -/

/-- Entries with others put over them: the lower keys in their order, each overlaid by the upper entry
of the key if there is one, and then the keys of the upper entries alone, in theirs. -/
def Forest.overlaid : Forest Setting → Forest Setting → Forest Setting
  | .nil, upper => upper
  | .cons l cs ss, upper =>
    let rest := ss.overlaid (upper.filterRoots (·.key != l.key))
    match upper.findRoot? (·.key == l.key) with
    | some u =>
      .cons { l with content := u.label.content }
        (if l.content = .object ∧ u.label.content = .object then cs.overlaid u.children
          else u.children)
        rest
    | none => .cons l cs rest

/-- What stands for a key when one tree is put over another: two objects together, and in every other
case the upper one. -/
def Rose.overlaid (lower upper : Rose Setting) : Rose Setting :=
  ⟨{ lower.label with content := upper.label.content },
    if lower.label.content = .object ∧ upper.label.content = .object then
      lower.children.overlaid upper.children
    else upper.children⟩

/-- The tree with another put over it, if there is one. -/
def Rose.beneath (lower : Rose Setting) (upper : Option (Rose Setting)) : Rose Setting :=
  match upper with
  | some u => lower.overlaid u
  | none => lower

/-- The setting that a path of keys leads to, through objects. -/
def Rose.setting? (r : Rose Setting) : List String → Option (Rose Setting)
  | [] => some r
  | key :: path =>
    if r.label.content = .object then
      (r.children.findRoot? (·.key == key)).bind (·.setting? path)
    else none

/-- What is found at a path. -/
def Rose.content? (r : Rose Setting) (path : List String) : Option Content :=
  (r.setting? path).map (·.label.content)

/-- The tree says what a path leads to: it has something there, or something other than an object on the
way. -/
def Rose.Sets (r : Rose Setting) : List String → Prop
  | [] => True
  | key :: path => r.label.content = .object →
      ∃ child ∈ r.children.findRoot? (·.key == key), child.Sets path

instance Rose.decidableSets : (path : List String) → (r : Rose Setting) → Decidable (r.Sets path)
  | [], _ => isTrue trivial
  | key :: path, r =>
    have (child : Rose Setting) : Decidable (child.Sets path) := decidableSets path child
    inferInstanceAs (Decidable (r.label.content = .object →
      ∃ child ∈ r.children.findRoot? (·.key == key), child.Sets path))

namespace Forest

theorem overlaid_cons (l : Setting) (cs ss upper : Forest Setting) :
    (Forest.cons l cs ss).overlaid upper =
      .ofRose ((⟨l, cs⟩ : Rose Setting).beneath (upper.findRoot? (Setting.key · == l.key))) ++
        ss.overlaid (upper.filterRoots (Setting.key · != l.key)) := by
  rw [overlaid]
  cases upper.findRoot? (Setting.key · == l.key) <;> rfl

/-- The entries in order, where lower keys are distinct. -/
theorem roots_overlaid {lower : Forest Setting} (hl : (lower.rootKeys Setting.key).Nodup)
    (upper : Forest Setting) :
    (lower.overlaid upper).roots =
      lower.roots.map (fun l => l.beneath (upper.findRoot? (Setting.key · == l.label.key))) ++
        upper.roots.filter fun u => u.label.key ∉ lower.rootKeys Setting.key := by
  induction lower generalizing upper with
  | nil => simp [overlaid, roots]
  | cons l cs ss _ ih =>
    obtain ⟨new, hss⟩ := List.nodup_cons.1 hl
    have later : ss.roots.map (fun x => x.beneath ((upper.filterRoots (Setting.key · != l.key)).findRoot?
          (Setting.key · == x.label.key))) =
        ss.roots.map fun x => x.beneath (upper.findRoot? (Setting.key · == x.label.key)) := by
      refine List.map_congr_left fun x hx => ?_
      have other : x.label.key ≠ l.key := fun same => new (mem_rootKeys.2 ⟨x, hx, same⟩)
      rw [findRoot?_filterRoots, if_neg other]
    have alone : (upper.filterRoots (Setting.key · != l.key)).roots.filter
          (fun u => u.label.key ∉ ss.rootKeys Setting.key) =
        upper.roots.filter fun u => u.label.key ∉ (cons l cs ss).rootKeys Setting.key := by
      rw [roots_filterRoots, List.filter_filter]
      refine List.filter_congr fun u _ => ?_
      by_cases same : u.label.key = l.key <;> simp [same]
    rw [overlaid_cons, roots_append, ih hss, later, alone]
    rfl

/-- A key names the upper entry put over the lower one, or the one of them that there is. -/
theorem findRoot?_overlaid (lower upper : Forest Setting) (k : String) :
    (lower.overlaid upper).findRoot? (Setting.key · == k) =
      Option.merge Rose.overlaid (lower.findRoot? (Setting.key · == k))
        (upper.findRoot? (Setting.key · == k)) := by
  induction lower generalizing upper with
  | nil => simp [overlaid]
  | cons l cs ss _ ih =>
    have key : ((⟨l, cs⟩ : Rose Setting).beneath (upper.findRoot? (Setting.key · == l.key))).label.key =
        l.key := by
      cases upper.findRoot? (Setting.key · == l.key) <;> rfl
    rw [overlaid_cons, findRoot?_append, ih, findRoot?_filterRoots, findRoot?_cons, ofRose,
      findRoot?_cons, key]
    by_cases same : l.key = k
    · subst same
      simp only [if_true]
      cases upper.findRoot? (Setting.key · == l.key) <;> rfl
    · rw [if_neg same, if_neg same, if_neg (Ne.symm same)]
      rfl

end Forest

/-! ## Paths that layers set -/

namespace Rose

variable {l u : Rose Setting} {path : List String} {key : String}

theorem setting?_eq_none_of_not_sets (h : ¬u.Sets path) : u.setting? path = none := by
  induction path generalizing u with
  | nil => exact absurd trivial h
  | cons key path ih =>
    obtain ⟨object, none⟩ := Classical.not_imp.1 h
    rw [setting?, if_pos object]
    cases found : u.children.findRoot? (Setting.key · == key) with
    | none => rfl
    | some child => exact ih fun sets => none ⟨child, found, sets⟩

theorem content_overlaid (l u : Rose Setting) :
    (l.overlaid u).label.content = u.label.content := rfl

/-- A path that the upper tree does not set leads where it led. -/
theorem setting?_overlaid_of_not_sets (h : ¬u.Sets path) :
    (l.overlaid u).setting? path = l.setting? path := by
  induction path generalizing l u with
  | nil => exact absurd trivial h
  | cons key path ih =>
    have own := setting?_eq_none_of_not_sets h
    obtain ⟨object, none⟩ := Classical.not_imp.1 h
    rw [setting?, if_pos object] at own
    rw [setting?, setting?, content_overlaid, if_pos object]
    by_cases both : l.label.content = .object
    · rw [if_pos both, overlaid, if_pos ⟨both, object⟩, Forest.findRoot?_overlaid]
      cases l.children.findRoot? (Setting.key · == key) with
      | none => rw [Option.merge_none_left]; exact own
      | some below =>
        cases found : u.children.findRoot? (Setting.key · == key) with
        | none => rfl
        | some above => exact ih fun sets => none ⟨above, found, sets⟩
    · rw [if_neg both, overlaid, if_neg fun h => both h.1]
      exact own

/-- A path that the upper tree sets leads to what is there in the upper tree. -/
theorem content?_overlaid_of_sets (h : u.Sets path) :
    (l.overlaid u).content? path = u.content? path := by
  induction path generalizing l u with
  | nil => rfl
  | cons key path ih =>
    unfold content?
    rw [setting?, setting?, content_overlaid]
    by_cases object : u.label.content = .object
    · obtain ⟨above, found, sets⟩ := h object
      rw [if_pos object, if_pos object, overlaid]
      by_cases both : l.label.content = .object
      · rw [if_pos ⟨both, object⟩, Forest.findRoot?_overlaid, found]
        cases l.children.findRoot? (Setting.key · == key) with
        | none => rfl
        | some below => exact ih sets
      · rw [if_neg fun h => both h.1]
    · rw [if_neg object, if_neg object]

/-- What the upper tree has at a path it sets, unless that is an object, is there as it is. -/
theorem setting?_overlaid_of_sets (h : u.Sets path) (whole : u.content? path ≠ some .object)
    (same : path = [] → l.label.key = u.label.key) :
    (l.overlaid u).setting? path = u.setting? path := by
  induction path generalizing l u with
  | nil =>
    have content : u.label.content ≠ .object := fun object => whole (congrArg some object)
    have label : ({ l.label with content := u.label.content } : Setting) = u.label :=
      congrArg (Setting.mk · u.label.content) (same rfl)
    rw [setting?, setting?, overlaid, if_neg fun h => content h.2, label]
  | cons key path ih =>
    rw [setting?, setting?, content_overlaid]
    by_cases object : u.label.content = .object
    · obtain ⟨above, found, sets⟩ := h object
      have whole : above.content? path ≠ some .object := by
        rwa [content?, setting?, if_pos object, found] at whole
      rw [if_pos object, if_pos object, overlaid]
      by_cases both : l.label.content = .object
      · rw [if_pos ⟨both, object⟩, Forest.findRoot?_overlaid, found]
        cases first : l.children.findRoot? (Setting.key · == key) with
        | none => rfl
        | some below =>
          exact ih sets whole fun _ => (Forest.findRoot?_key first).trans (Forest.findRoot?_key found).symm
      · rw [if_neg fun h => both h.1]
    · rw [if_neg object, if_neg object]

theorem setting?_foldl_of_not_sets {layers : List (Rose Setting)}
    (h : ∀ layer ∈ layers, ¬layer.Sets path) :
    (layers.foldl overlaid l).setting? path = l.setting? path := by
  induction layers generalizing l with
  | nil => rfl
  | cons u layers ih =>
    obtain ⟨hu, hlayers⟩ := List.forall_mem_cons.1 h
    rw [List.foldl_cons, ih hlayers, setting?_overlaid_of_not_sets hu]

/-- The last layer that sets a path decides what it leads to. -/
theorem content?_foldl_of_sets {before after : List (Rose Setting)} (h : u.Sets path)
    (last : ∀ layer ∈ after, ¬layer.Sets path) :
    ((before ++ u :: after).foldl overlaid l).content? path = u.content? path := by
  rw [List.foldl_append, List.foldl_cons, content?, setting?_foldl_of_not_sets last]
  exact content?_overlaid_of_sets h

theorem setting?_foldl_of_sets {before after : List (Rose Setting)} (h : u.Sets path)
    (last : ∀ layer ∈ after, ¬layer.Sets path) (whole : u.content? path ≠ some .object)
    (below : path ≠ []) :
    ((before ++ u :: after).foldl overlaid l).setting? path = u.setting? path := by
  rw [List.foldl_append, List.foldl_cons, setting?_foldl_of_not_sets last]
  exact setting?_overlaid_of_sets h whole fun none => absurd none below

theorem content_foldl_of_objects {layers : List (Rose Setting)} (nonempty : layers ≠ [])
    (objects : ∀ layer ∈ layers, layer.label.content = .object) :
    (layers.foldl overlaid l).label.content = .object := by
  obtain ⟨front, last, rfl⟩ := (List.eq_nil_or_concat layers).resolve_left nonempty
  rw [List.concat_eq_append, List.foldl_append]
  exact objects last (by simp)

end Rose

/-! ## Items under their positions -/

theorem Forest.findRoot?_numbered (f : Forest Setting) (k : String) :
    f.numbered.findRoot? (Setting.key · == k) =
      (f.findRoot? (Setting.key · == k)).map Rose.numbered := by
  induction f with
  | nil => rfl
  | cons s cs ss _ ih =>
    rw [numbered_cons, ofRose, cons_append, findRoot?_cons, findRoot?_cons, nil_append, ih]
    show (if s.key = k then _ else _) = _
    split <;> rfl

theorem Rose.setting?_numbered (r : Rose Setting) (path : List String) :
    r.numbered.setting? path = (r.setting? path).map numbered := by
  induction path generalizing r with
  | nil => rfl
  | cons key path ih =>
    rw [setting?, setting?, numbered]
    by_cases object : r.label.content = .object
    · rw [if_pos object, if_pos object, if_neg (by rw [object]; exact nofun), Forest.findRoot?_numbered]
      cases r.children.findRoot? (Setting.key · == key) with
      | none => rfl
      | some child => exact ih child
    · rw [if_neg object, if_neg object]
      rfl

/-- An object under another key, its items under their positions. -/
theorem Rose.setting?_rekeyed {r : Rose Setting} (object : r.label.content = .object) (key : String)
    {path : List String} (below : path ≠ []) :
    (⟨⟨key, .object⟩, r.children.numbered⟩ : Rose Setting).setting? path =
      (r.setting? path).map numbered := by
  rw [← setting?_numbered]
  cases path with
  | nil => exact absurd rfl below
  | cons first path =>
    have same : r.numbered.label.content = .object := object
    rw [setting?, setting?, if_pos rfl, if_pos same, numbered, if_neg (by rw [object]; exact nofun)]

end LayeredConfig
