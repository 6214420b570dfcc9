import LayeredConfig.Proofs.Compile.Expansion

/-!
# Expansion keeps a document's own nodes

Aliases add entries to an object and stand in for nodes that hold nothing, but they never displace a
node that the document has of its own: where every step of a way leads to one child, the way leads
to that child expanded (`at?_of_expanded`).
-/

namespace LayeredConfig

section Pass

variable {g : Place → String → Except CompileError (Rose Layered)} {place : Place}

theorem Forest.getElem?_roots_expanded {parent : Shape} {position i : Nat}
    {f f' : Forest Layered} (h : f.expanded g parent place position = .ok f') {c : Rose Layered}
    (hc : f.roots[i]? = some c) :
    ∃ c', c.expanded g (place ++ [parent.step (position + i) c.label]) = .ok c' ∧
      f'.roots[i]? = some c' := by
  induction f generalizing position i f' with
  | nil => cases hc
  | cons l cs ss _ ih =>
    obtain ⟨r, rest, hr, hs, rfl⟩ := expanded_cons_eq_ok.1 h
    cases i with
    | zero =>
      cases hc
      exact ⟨r, hr, rfl⟩
    | succ i =>
      obtain ⟨c', hc', found⟩ := ih hs hc
      rw [Nat.add_assoc, Nat.add_comm 1 i] at hc'
      exact ⟨c', hc', found⟩

theorem Forest.filter_roots_expanded {position : Nat} {f f' : Forest Layered}
    (h : f.expanded g .object place position = .ok f') {name : String} {c : Rose Layered}
    (hc : f.roots.filter (·.label.key == name) = [c]) :
    ∃ c', c.expanded g (place ++ [.key name]) = .ok c' ∧
      f'.roots.filter (·.label.key == name) = [c'] := by
  induction f generalizing position f' with
  | nil => cases hc
  | cons l cs ss _ ih =>
    obtain ⟨r, rest, hr, hs, rfl⟩ := expanded_cons_eq_ok.1 h
    have key := Rose.key_expanded hr
    rw [roots, List.filter_cons] at hc ⊢
    simp only [key]
    by_cases same : l.key = name
    · rw [if_pos (beq_iff_eq.2 same), List.cons.injEq] at hc
      obtain ⟨rfl, none⟩ := hc
      have others : ∀ x ∈ rest.roots, ¬ (x.label.key == name) = true := by
        intro x hx found
        have named : name ∈ rest.rootKeys Layered.key := mem_rootKeys.2 ⟨x, hx, beq_iff_eq.1 found⟩
        rw [rootKeys_expanded hs] at named
        obtain ⟨y, hy, hname⟩ := mem_rootKeys.1 named
        exact List.filter_eq_nil_iff.1 none y hy (beq_iff_eq.2 hname)
      refine ⟨r, same ▸ hr, ?_⟩
      rw [if_pos (beq_iff_eq.2 same), List.filter_eq_nil_iff.2 others]
    · rw [if_neg fun h => same (beq_iff_eq.1 h)] at hc ⊢
      exact ih hs hc

theorem Layered.expanded_of_object {l : Layered} (shape : l.shape = .object)
    {children : Forest Layered} (own : children ≠ .nil) (xs : List (Rose Layered)) :
    l.expanded xs children = ⟨l.plain, (suppliedEntries xs).putAll Layered.key children⟩ := by
  cases children with
  | nil => exact absurd rfl own
  | cons a cs ss => simp only [expanded, shape]

theorem Layered.expanded_of_array {l : Layered} (shape : l.shape = .array)
    {children : Forest Layered} (own : children ≠ .nil) (xs : List (Rose Layered)) :
    l.expanded xs children = ⟨l.plain, children⟩ := by
  cases children with
  | nil => exact absurd rfl own
  | cons a cs ss => simp only [expanded, shape]

/-- A node with a child of its own stays the node it is, and the only child that a step leads to is
there, expanded. -/
theorem Rose.child?_of_expanded {r r' c : Rose Layered} {step : Step}
    (h : r.expanded g place = .ok r') (hc : r.childrenAt step = [c]) :
    r'.label.shape = r.label.shape ∧
      ∃ c', c.expanded g (place ++ [step]) = .ok c' ∧ r'.child? step = some c' := by
  obtain ⟨xs, children, -, hchildren, rfl⟩ := expanded_eq_ok.1 h
  unfold childrenAt at hc
  split at hc
  · rename_i name shape
    rw [shape] at hchildren
    obtain ⟨c', hc', found⟩ := Forest.filter_roots_expanded hchildren hc
    have own : children ≠ .nil := by
      rintro rfl
      cases found
    refine ⟨by rw [Layered.expanded_of_object shape own]; rfl, c', hc', ?_⟩
    rw [Layered.expanded_of_object shape own,
      child?_of_object (r := ⟨r.label.plain, _⟩) shape, Forest.findRoot?_putAll,
      ← List.head?_filter, List.filter_reverse, found]
    rfl
  · rename_i position shape
    obtain ⟨c', hc', found⟩ := Forest.getElem?_roots_expanded hchildren
      (Option.toList_eq_singleton_iff.1 hc)
    have own : children ≠ .nil := by
      rintro rfl
      cases found
    rw [shape, Shape.step, Nat.zero_add] at hc'
    refine ⟨by rw [Layered.expanded_of_array shape own]; rfl, c', hc', ?_⟩
    rw [Layered.expanded_of_array shape own, child?_of_array (r := ⟨r.label.plain, _⟩) shape]
    exact found
  · cases hc

/-- Where every step of a way leads to one child, the way leads to that child expanded. -/
theorem Rose.at?_of_expanded {r r' n : Rose Layered} {way : Place}
    (h : r.expanded g place = .ok r') (hn : r.sole? way = some n) :
    ∃ n', n.expanded g (place ++ way) = .ok n' ∧ r'.at? way = some n' := by
  induction way generalizing r r' place with
  | nil =>
    cases hn
    exact ⟨r', by rw [List.append_nil]; exact h, rfl⟩
  | cons step way ih =>
    obtain ⟨c, hc, hn⟩ := sole?_cons.1 hn
    obtain ⟨-, c', hc', found⟩ := child?_of_expanded h hc
    obtain ⟨n', hn', there⟩ := ih hc' hn
    refine ⟨n', by rw [List.append_cons]; exact hn', ?_⟩
    rw [at?_cons, found]
    exact there

/-- A scalar without aliases keeps its values. -/
theorem Rose.shape_expanded_of_plain {n n' : Rose Layered} (h : n.expanded g place = .ok n')
    (plain : n.label.aliases = []) {history : List (Option Scalar)}
    (shape : n.label.shape = .scalar history) : n'.label.shape = .scalar history := by
  obtain ⟨xs, children, hxs, -, rfl⟩ := expanded_eq_ok.1 h
  rw [plain, List.mapM_nil] at hxs
  cases Outcome.pure_eq_ok.1 hxs
  simp only [Layered.expanded, shape, Layered.plain]

/-- A scalar with aliases is what its first alias stands for. -/
theorem Rose.expanded_of_alias {n n' : Rose Layered} (h : n.expanded g place = .ok n')
    {history : List (Option Scalar)} (shape : n.label.shape = .scalar history) {name : String}
    (first : n.label.aliases.head? = some name) :
    ∃ x, g place name = .ok x ∧ n' = x.withKey n.label.key := by
  obtain ⟨xs, children, hxs, -, rfl⟩ := expanded_eq_ok.1 h
  obtain ⟨more, same⟩ := List.head?_eq_some_iff.1 first
  rw [same, Outcome.mapM_eq_ok] at hxs
  cases xs with
  | nil => cases hxs
  | cons x xs =>
    rw [List.map_cons, List.map_cons, List.cons.injEq] at hxs
    exact ⟨x, hxs.1, by simp only [Layered.expanded, shape]⟩

end Pass

end LayeredConfig
