import LayeredConfig.Proofs.Session.ViewState
import LayeredConfig.Proofs.Tree.Trails

/-!
# Paths that lead back

The text of a way (`joinKeys`) has a dot before each name and none before a position, and
`splitPath` takes it apart again: `pathKeys` says what is read after a key that has begun, so the
induction over the keys of a way carries that key along (`pathKeys_join`). Where sibling keys are
distinct, the keys on the way to a node then lead to that node (`UniqueKeys.resolve?_keyPath`).

* `IsPosition`, `IsPathKey` : the keys that a text can show;
* `splitPath_joinKeys` : the text of legible keys has these keys;
* `Configuration.resolvePath_pathText` : the path shown for a node leads to it, and to no other.
-/

namespace LayeredConfig

/-! ## Legible keys -/

/-- A position in brackets. -/
def IsPosition (key : String) : Prop :=
  ∃ digits : List Char, (∀ c ∈ digits, c.isDigit) ∧ key.toList = '[' :: (digits ++ [']'])

/-- A text without dots and opening brackets. -/
def IsPathName (key : String) : Prop := key ≠ "" ∧ '.' ∉ key.toList ∧ '[' ∉ key.toList

/-- A key that can be told from its neighbours in a path. -/
def IsPathKey (key : String) : Prop := IsPosition key ∨ IsPathName key

instance (key : String) : Decidable (IsPosition key) :=
  decidable_of_iff
    (key.toList.tail.dropLast.all Char.isDigit ∧ key.toList = '[' :: (key.toList.tail.dropLast ++ [']']))
    ⟨fun ⟨digits, shape⟩ => ⟨_, List.all_eq_true.1 digits, shape⟩,
      fun ⟨digits, all, shape⟩ => ⟨by simpa [shape] using all, by simp [shape]⟩⟩

instance (key : String) : Decidable (IsPathName key) :=
  inferInstanceAs (Decidable (key ≠ "" ∧ '.' ∉ key.toList ∧ '[' ∉ key.toList))

instance (key : String) : Decidable (IsPathKey key) :=
  inferInstanceAs (Decidable (IsPosition key ∨ IsPathName key))

/-- The items of arrays are keyed by positions. -/
theorem isPosition_itemKey (n : Nat) : IsPosition (itemKey n) := by
  refine ⟨Nat.toDigits 10 n, fun c => Nat.isDigit_of_mem_toDigits (by decide) (by decide), ?_⟩
  show ("[" ++ toString n ++ "]").toList = _
  simp [Nat.toString_eq_repr, Nat.toList_repr]

theorem startsWith_bracket (key : String) : key.startsWith "[" ↔ key.toList.head? = some '[' := by
  rw [String.startsWith_string_iff]
  cases key.toList <;> simp [eq_comm]

theorem IsPathKey.startsWith {key : String} (h : IsPathKey key) : key.startsWith "[" ↔ IsPosition key := by
  rw [startsWith_bracket]
  constructor
  · intro first
    rcases h with position | ⟨-, -, bracket⟩
    · exact position
    · exact absurd (List.mem_of_mem_head? first) bracket
  · rintro ⟨digits, -, shape⟩
    rw [shape]
    rfl

/-! ## The text of a way -/

/-- What a path shows for a key below the root. -/
def shownKey (key : String) : List Char :=
  if key.startsWith "[" then key.toList else '.' :: key.toList

theorem toList_joinKeys {start : String} (nonempty : start ≠ "") (keys : List String) :
    (joinKeys start keys).toList = start.toList ++ keys.flatMap shownKey := by
  induction keys generalizing start with
  | nil => simp [joinKeys]
  | cons key keys ih =>
    have begun : start.isEmpty = false := by simpa using nonempty
    have step : joinKeys start (key :: keys) =
        joinKeys (if key.startsWith "[" then start ++ key else start ++ "." ++ key) keys := by
      rw [joinKeys, List.foldl_cons, begun, Bool.or_false]
      rfl
    rw [step, ih, List.flatMap_cons, shownKey]
    · split <;> simp
    · split <;> simp [nonempty]

/-! ## Taking a path apart -/

/-- The keys read from the rest of a path after the characters `part` of a key, last first. -/
def pathKeys (part cs : List Char) : List (List Char) :=
  match cs.splitOn '.' with
  | [] => []
  | first :: rest => splitBrackets false part first ++ rest.flatMap (splitBrackets false [])

/-- A key that has begun and ends here; none if it has no character. -/
def flushed (part : List Char) : List (List Char) := if part.isEmpty then [] else [part.reverse]

theorem splitPath_eq (path : String) : splitPath path = (pathKeys [] path.toList).map String.ofList := by
  rw [splitPath, pathKeys]
  cases path.toList.splitOn '.' <;> rfl

@[simp] theorem pathKeys_nil (part : List Char) : pathKeys part [] = flushed part := by
  simp [pathKeys, splitBrackets, flushed]

theorem pathKeys_dot (part cs : List Char) : pathKeys part ('.' :: cs) = flushed part ++ pathKeys [] cs := by
  rw [pathKeys, List.splitOn_cons_eq_if_modifyHead, if_pos (beq_self_eq_true _)]
  show splitBrackets false part [] ++ (cs.splitOn '.').flatMap (splitBrackets false []) = _
  rw [pathKeys, splitBrackets, flushed]
  cases cs.splitOn '.' <;> rfl

/-- Characters other than dots belong to the part before the next dot. -/
theorem splitOn_append {w : List Char} (dot : '.' ∉ w) (cs : List Char) :
    (w ++ cs).splitOn '.' = (cs.splitOn '.').modifyHead (w ++ ·) := by
  induction w with
  | nil =>
    rw [List.nil_append]
    cases cs.splitOn '.' <;> rfl
  | cons c w ih =>
    rw [List.mem_cons, not_or] at dot
    have other : ¬(c == '.') = true := by simpa using Ne.symm dot.1
    rw [List.cons_append, List.splitOn_cons_eq_if_modifyHead, if_neg other, ih dot.2]
    cases cs.splitOn '.' <;> rfl

theorem pathKeys_append {w : List Char} (dot : '.' ∉ w) (part cs : List Char) {read : List (List Char)}
    {part' : List Char} (reads : ∀ rest, splitBrackets false part (w ++ rest) =
      read ++ splitBrackets false part' rest) :
    pathKeys part (w ++ cs) = read ++ pathKeys part' cs := by
  obtain ⟨first, rest, parts⟩ := List.exists_cons_of_ne_nil (List.splitOn_ne_nil '.' cs)
  rw [pathKeys, splitOn_append dot, parts, List.modifyHead_cons]
  dsimp only
  rw [reads, pathKeys, parts, List.append_assoc]

/-- A name goes on with the key that has begun. -/
theorem splitBrackets_name {w : List Char} (bracket : '[' ∉ w) (part rest : List Char) :
    splitBrackets false part (w ++ rest) = splitBrackets false (w.reverse ++ part) rest := by
  induction w generalizing part with
  | nil => rfl
  | cons c w ih =>
    rw [List.mem_cons, not_or] at bracket
    rw [List.cons_append, splitBrackets, if_neg (by decide), if_neg (Ne.symm bracket.1), ih bracket.2,
      List.reverse_cons, List.append_assoc, List.singleton_append]

/-- Inside a bracket all belongs to one key, up to the first closing bracket. -/
theorem splitBrackets_inside {w : List Char} (closing : ']' ∉ w) (part rest : List Char) :
    splitBrackets true part (w ++ ']' :: rest) =
      (part.reverse ++ w ++ [']']) :: splitBrackets false [] rest := by
  induction w generalizing part with
  | nil => simp [splitBrackets]
  | cons c w ih =>
    rw [List.mem_cons, not_or] at closing
    rw [List.cons_append, splitBrackets, if_pos rfl, if_neg (Ne.symm closing.1), ih closing.2]
    simp

/-- A position ends the key that has begun and is a key of its own. -/
theorem splitBrackets_position {w : List Char} (closing : ']' ∉ w) (part rest : List Char) :
    splitBrackets false part ('[' :: (w ++ [']']) ++ rest) =
      flushed part ++ ['[' :: (w ++ [']'])] ++ splitBrackets false [] rest := by
  have inside : splitBrackets true ['['] (w ++ ']' :: rest) =
      ('[' :: (w ++ [']'])) :: splitBrackets false [] rest := splitBrackets_inside closing ['['] rest
  rw [List.cons_append, List.append_assoc, List.singleton_append, splitBrackets, if_neg (by decide),
    if_pos rfl, inside, flushed]
  split <;> rfl

theorem pathKeys_name {w : List Char} (dot : '.' ∉ w) (bracket : '[' ∉ w) (cs : List Char) :
    pathKeys [] (w ++ cs) = pathKeys w.reverse cs := by
  have reads : ∀ rest, splitBrackets false [] (w ++ rest) = [] ++ splitBrackets false w.reverse rest := by
    intro rest
    rw [splitBrackets_name bracket, List.append_nil, List.nil_append]
  rw [pathKeys_append dot [] cs reads, List.nil_append]

/-! ## The keys of a text -/

theorem not_mem_of_isDigit {w : List Char} {c : Char} (digits : ∀ d ∈ w, d.isDigit) (other : ¬c.isDigit) :
    c ∉ w := fun inside => other (digits c inside)

/-- Legible keys after a key that has begun: it ends, and they are read one by one. -/
theorem pathKeys_join {keys : List String} (legible : ∀ key ∈ keys, IsPathKey key) (part : List Char) :
    pathKeys part (keys.flatMap shownKey) = flushed part ++ keys.map String.toList := by
  induction keys generalizing part with
  | nil => simp
  | cons key keys ih =>
    obtain ⟨here, rest⟩ := List.forall_mem_cons.1 legible
    have start := here.startsWith
    rw [List.flatMap_cons, shownKey, List.map_cons]
    rcases here with position | ⟨nonempty, dot, bracket⟩
    · obtain ⟨digits, all, shape⟩ := position
      have dots : '.' ∉ '[' :: (digits ++ [']']) := by
        simpa using not_mem_of_isDigit all (by decide)
      have closing : ']' ∉ digits := not_mem_of_isDigit all (by decide)
      rw [if_pos (start.2 ⟨digits, all, shape⟩), shape,
        pathKeys_append dots part _ (splitBrackets_position closing part), ih rest]
      simp [flushed]
    · have name : ¬key.startsWith "[" := fun first =>
        bracket (List.mem_of_mem_head? ((startsWith_bracket key).1 first))
      have begun : key.toList ≠ [] := by simpa using nonempty
      rw [if_neg name, List.cons_append, pathKeys_dot,
        pathKeys_name dot bracket, ih rest]
      simp [flushed, begun]

/-- The text of a way has the keys of the way. -/
theorem splitPath_joinKeys {start : String} {keys : List String} (name : IsPathName start)
    (legible : ∀ key ∈ keys, IsPathKey key) : splitPath (joinKeys start keys) = start :: keys := by
  obtain ⟨nonempty, dot, bracket⟩ := name
  have begun : start.toList ≠ [] := by simpa using nonempty
  have read : pathKeys [] (start.toList ++ keys.flatMap shownKey) = start.toList :: keys.map String.toList := by
    rw [pathKeys_name dot bracket, pathKeys_join legible]
    simp [flushed, begun]
  have texts : (keys.map String.toList).map String.ofList = keys := by
    rw [List.map_map]
    exact List.map_id'' (fun key => String.ofList_toList) keys
  rw [splitPath_eq, toList_joinKeys nonempty, read, List.map_cons, texts, String.ofList_toList]

example : splitPath "environments.prod.servers[0][12].name" =
    ["environments", "prod", "servers", "[0]", "[12]", "name"] := by decide

/-! ## The keys on the way to a node -/

theorem Forest.cons_mem_trails {α : Type} {f : Forest α} {a : α} {below : List α} (h : a :: below ∈ f.trails) :
    ∃ cs, (⟨a, cs⟩ : Rose α) ∈ f.roots ∧ (below = [] ∨ below ∈ cs.trails) := by
  induction f with
  | nil => cases h
  | cons b cs ss _ ih =>
    simp only [trails, List.mem_cons, List.mem_append, List.mem_map] at h
    rcases h with top | ⟨way, inside, same⟩ | later
    · cases top
      exact ⟨cs, List.mem_cons_self, Or.inl rfl⟩
    · cases same
      exact ⟨cs, List.mem_cons_self, Or.inr inside⟩
    · obtain ⟨ds, there, rest⟩ := ih later
      exact ⟨ds, List.mem_cons_of_mem _ there, rest⟩

namespace Tree

variable {t : Tree} {h : Handle}

/-- Where sibling keys are distinct, each key on a way down leads to the next node on it. -/
theorem follow_keys {r : Rose Entry} {below : List Entry}
    (unique : r.Everywhere fun n => (n.children.rootKeys (·.data.key)).Nodup)
    (way : below = [] ∨ below ∈ r.children.trails) :
    ∃ s, follow stepKey r (below.map (·.data.key)) = some s ∧
      (r.label :: below).getLast? = some s.label := by
  induction below generalizing r with
  | nil => exact ⟨r, rfl, rfl⟩
  | cons e below ih =>
    have inside : e :: below ∈ r.children.trails := way.resolve_left (List.cons_ne_nil e below)
    obtain ⟨cs, there, rest⟩ := Forest.cons_mem_trails inside
    have step : stepKey r e.data.key = some ⟨e, cs⟩ :=
      @Forest.findRoot?_of_mem Entry (·.data.key) _ unique.1 _ there
    obtain ⟨s, found, last⟩ := ih (unique.root there) rest
    refine ⟨s, ?_, ?_⟩
    · rw [List.map_cons, follow, step]
      exact found
    · rw [List.getLast?_cons_cons]
      exact last

/-- The way to a node starts at the root and goes on below it. -/
theorem Sound.trail_eq_cons (ht : t.Sound) (there : t.contains h) :
    ∃ below, t.trail h = t.top.label :: below ∧ (below = [] ∨ below ∈ t.top.children.trails) ∧
      ∃ e, (t.top.label :: below).getLast? = some e ∧ e.handle = h := by
  obtain ⟨e, inside, rfl⟩ := Forest.mem_handles.1 (contains_iff.1 there)
  obtain ⟨way, last⟩ := ht.mem_trails_iff.2 ⟨mem_entries_iff.2 inside, rfl⟩
  generalize t.trail e.handle = trail at way last
  obtain ⟨first, below, rfl⟩ := List.exists_cons_of_ne_nil (Forest.ne_nil_of_mem_trails way)
  obtain ⟨cs, top, rest⟩ := Forest.cons_mem_trails way
  cases List.mem_singleton.1 top
  exact ⟨below, rfl, rest, e, last, rfl⟩

/-- The keys on the way to a node lead to it. -/
theorem UniqueKeys.resolve?_keyPath (hu : t.UniqueKeys) (ht : t.Sound) (there : t.contains h) :
    t.resolve? t.root (t.keyPath h) = some h := by
  obtain ⟨below, way, rest, e, last, rfl⟩ := ht.trail_eq_cons there
  obtain ⟨s, found, final⟩ := follow_keys hu rest
  have same : s.label = e := Option.some.inj (final.symm.trans last)
  rw [keyPath, way, List.tail_cons, resolve?, walk?]
  cases below with
  | nil =>
    cases last
    rfl
  | cons first below =>
    rw [if_neg (by simp), find?_root, Option.bind_some, found, Option.map_some, same]

/-- The keys on the way to a node are keys of nodes below the root. -/
theorem Sound.mem_keyPath (ht : t.Sound) (there : t.contains h) {key : String} (hk : key ∈ t.keyPath h) :
    ∃ e ∈ t.top.children.preorder, e.data.key = key := by
  obtain ⟨below, way, rest, -⟩ := ht.trail_eq_cons there
  rw [keyPath, way, List.tail_cons] at hk
  obtain ⟨e, inside, rfl⟩ := List.mem_map.1 hk
  rcases rest with rfl | rest
  · cases inside
  · exact ⟨e, Forest.mem_preorder_of_mem_trails rest inside, rfl⟩

/-- The tree is of this kind and bears its key at the root. -/
def RootedAs (kind : TreeKind) (t : Tree) : Prop := t.kind = kind ∧ t.top.label.data.key = rootKeyOf kind

/-- Every key below the root is legible. -/
def LegibleKeys (t : Tree) : Prop := ∀ e ∈ t.top.children.preorder, IsPathKey e.data.key

instance (kind : TreeKind) (t : Tree) : Decidable (t.RootedAs kind) :=
  inferInstanceAs (Decidable (t.kind = kind ∧ t.top.label.data.key = rootKeyOf kind))

instance (t : Tree) : Decidable t.LegibleKeys :=
  inferInstanceAs (Decidable (∀ e ∈ t.top.children.preorder, IsPathKey e.data.key))

theorem Sound.splitPath_pathText (ht : t.Sound) (there : t.contains h)
    (root : IsPathName t.top.label.data.key) (legible : t.LegibleKeys) :
    splitPath (t.pathText h) = t.top.label.data.key :: t.keyPath h := by
  refine splitPath_joinKeys root fun key hk => ?_
  obtain ⟨e, inside, rfl⟩ := ht.mem_keyPath there hk
  exact legible e inside

end Tree

/-! ## Paths of a configuration -/

namespace Configuration

variable {c : Configuration} {kind : TreeKind} {t : Tree}

/-- Each tree is of its kind and bears the key of its kind at the root. -/
def Rooted (c : Configuration) : Prop := c.default.RootedAs .default ∧ c.environments.RootedAs .environments

/-- In both trees the keys below the root are legible. -/
def LegibleKeys (c : Configuration) : Prop := c.default.LegibleKeys ∧ c.environments.LegibleKeys

instance (c : Configuration) : Decidable c.Rooted :=
  inferInstanceAs (Decidable (c.default.RootedAs .default ∧ c.environments.RootedAs .environments))

instance (c : Configuration) : Decidable c.LegibleKeys :=
  inferInstanceAs (Decidable (c.default.LegibleKeys ∧ c.environments.LegibleKeys))

theorem Rooted.of_tree? (h : c.Rooted) (known : c.tree? kind = some t) : t.RootedAs kind := by
  cases kind with
  | default =>
    cases known
    exact h.1
  | environments =>
    cases known
    exact h.2
  | detached => cases known

/-- The keys of the two roots are names. -/
theorem isPathName_rootKeyOf (known : c.tree? kind = some t) :
    IsPathName (Tree.rootKeyOf kind) := by
  cases kind with
  | default => exact (by decide : IsPathName defaultKey)
  | environments => exact (by decide : IsPathName environmentsKey)
  | detached => cases known

/-- A path that starts with the key of a tree is followed there. -/
theorem resolvePath_of_splitPath (known : c.tree? kind = some t) {path : String} {keys : List String}
    (split : splitPath path = Tree.rootKeyOf kind :: keys) {h : Handle}
    (leads : t.resolve? t.root keys = some h) : c.resolvePath path = .ok ⟨t.kind, h⟩ := by
  have chosen : (if Tree.rootKeyOf kind = defaultKey then some (c.default, keys)
      else if Tree.rootKeyOf kind = environmentsKey then some (c.environments, keys)
      else none) = some (t, keys) := by
    cases kind with
    | default =>
      cases known
      exact if_pos rfl
    | environments =>
      cases known
      rw [if_neg (by decide)]
      exact if_pos rfl
    | detached => cases known
  unfold resolvePath
  rw [split]
  dsimp only
  rw [chosen, Option.bind_some]
  dsimp only
  rw [leads]
  rfl

/-- The path shown for a node has the keys of the root and of the way to the node, and leads back to
the node. So no two nodes show the same path. -/
theorem resolvePath_pathText (rooted : c.Rooted) (sound : c.Sound) (unique : c.UniqueKeys)
    (legible : c.LegibleKeys) :
    (∀ n t, c.tree? n.tree = some t → t.contains n.handle →
      splitPath (c.pathText n) = t.top.label.data.key :: t.keyPath n.handle ∧
        c.resolvePath (c.pathText n) = .ok n) ∧
    ∀ m n, c.contains m → c.contains n → c.pathText m = c.pathText n → m = n := by
  have back : ∀ n t, c.tree? n.tree = some t → t.contains n.handle →
      splitPath (c.pathText n) = t.top.label.data.key :: t.keyPath n.handle ∧
        c.resolvePath (c.pathText n) = .ok n := by
    intro n t known there
    obtain ⟨kind, key⟩ := rooted.of_tree? known
    have ht : t.Sound := of_both sound.1 sound.2 known
    have hu : t.UniqueKeys := of_both unique.1 unique.2 known
    have text : c.pathText n = t.pathText n.handle := by
      rw [pathText, known]
    have name : IsPathName t.top.label.data.key := key ▸ isPathName_rootKeyOf known
    have split : splitPath (c.pathText n) = t.top.label.data.key :: t.keyPath n.handle := by
      rw [text]
      exact ht.splitPath_pathText there name (of_both legible.1 legible.2 known)
    have leads : t.resolve? t.root (t.keyPath n.handle) = some n.handle := hu.resolve?_keyPath ht there
    refine ⟨split, ?_⟩
    rw [resolvePath_of_splitPath known (key ▸ split) leads, kind]
  refine ⟨back, fun m n hm hn same => ?_⟩
  obtain ⟨tm, km, inside⟩ := contains_iff.1 hm
  obtain ⟨tn, kn, inside'⟩ := contains_iff.1 hn
  have found : (Except.ok m : Except EditError NodeRef) = .ok n := by
    rw [← (back m tm km (Tree.contains_iff.2 inside)).2, same, (back n tn kn (Tree.contains_iff.2 inside')).2]
  exact Except.ok.inj found

/-- Arrays as the items of an array, and an environment whose name has a blank. -/
def nestedArrays : Configuration where
  default := ((Tree.empty .default).graft 0 ⟨{ key := "servers", type := .array },
    .cons { key := "[0]", type := .array } (.cons { key := "[0]", type := .string } .nil .nil)
      (.cons { key := "[1]", type := .array } (.cons { key := "[0]", type := .string } .nil .nil) .nil)⟩).1
  environments := ((Tree.empty .environments).graft 0 ⟨{ key := "prod 2" },
    .cons { key := "db" } (.cons { key := "host]", type := .string } .nil .nil) .nil⟩).1

theorem resolvePath_nestedArrays :
    (nestedArrays.Rooted ∧ nestedArrays.Sound ∧ nestedArrays.UniqueKeys ∧ nestedArrays.LegibleKeys) ∧
      nestedArrays.pathText ⟨.default, 5⟩ = "default.servers[1][0]" ∧
      nestedArrays.resolvePath "default.servers[1][0]" = .ok ⟨.default, 5⟩ := by
  have rooted : nestedArrays.Rooted := by decide
  have sound : nestedArrays.Sound := by decide
  have unique : nestedArrays.UniqueKeys := by decide
  have legible : nestedArrays.LegibleKeys := by decide
  have text : nestedArrays.pathText ⟨.default, 5⟩ = "default.servers[1][0]" := by decide +kernel
  have there : nestedArrays.default.contains 5 := by decide +kernel
  have back := ((resolvePath_pathText rooted sound unique legible).1 ⟨.default, 5⟩ nestedArrays.default rfl there).2
  rw [text] at back
  exact ⟨⟨rooted, sound, unique, legible⟩, text, back⟩

end Configuration

end LayeredConfig
