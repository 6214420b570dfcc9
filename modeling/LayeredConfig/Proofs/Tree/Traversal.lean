import LayeredConfig.Proofs.Tree.Refinement
import LayeredConfig.Proofs.Tree.Trails
import LayeredConfig.Tree.Traversal
import Mathlib.Data.List.Induction

/-!
# The walks over an arena agree

Each loop over a stack takes the trees of a forest from the top of the stack in the order in which
the forest is read, one step for each node: `descendantsFrom_of_holds` and `collect_nextPreorder`
read it in pre-order, `collect_nextPostorder` in post-order. The induction is on the forest that the
links describe, for any stack below it and any steps that are left then; the handle that a node
leaves on the stack for its second visit is part of the stack below its children. A sound tree has
no more nodes than slots, so the steps suffice (`Represents.exists_steps`).

Main statement: `traversed_run`, for the arena after every run.
-/

namespace LayeredConfig

/-! ## Post-order -/

namespace Forest

variable {α : Type} {f : Forest α}

theorem postorder_perm_preorder (f : Forest α) : f.postorder.Perm f.preorder := by
  induction f with
  | nil => exact List.Perm.refl _
  | cons a cs ss ihc ihs =>
    rw [postorder, preorder]
    exact List.perm_middle.trans ((ihc.append ihs).cons a)

/-- What is below a node comes right before the node. -/
theorem isInfix_postorder {r : Rose α} (hr : r ∈ f.subtrees) :
    r.children.postorder ++ [r.label] <:+: f.postorder := by
  induction f with
  | nil => cases hr
  | cons a cs ss ihc ihs =>
    rw [subtrees, List.mem_cons, List.mem_append] at hr
    rw [postorder]
    rcases hr with rfl | hr | hr
    · exact ⟨[], ss.postorder, by simp⟩
    · exact (ihc hr).trans (List.prefix_append _ _).isInfix
    · refine (ihs hr).trans (List.IsSuffix.isInfix ?_)
      exact (List.suffix_cons a _).trans (List.suffix_append _ _)

theorem rootLabels_sublist_postorder (f : Forest α) : f.rootLabels.Sublist f.postorder := by
  induction f with
  | nil => exact List.Sublist.slnil
  | cons a cs ss _ ih =>
    rw [rootLabels, postorder]
    exact (ih.cons_cons a).trans (List.sublist_append_right _ _)

/-- Steps for each node: one for the first, those for what is below it, and those for its siblings. -/
theorem size_cons_add (x : α) (cs ss : Forest α) (steps : Nat) :
    (cons x cs ss).size + steps = cs.size + (ss.size + steps) + 1 := by
  rw [size]
  omega

theorem size_le_of_mem_subtrees {r : Rose α} (hr : r ∈ f.subtrees) : (ofRose r).size ≤ f.size := by
  induction f with
  | nil => cases hr
  | cons a cs ss ihc ihs =>
    rw [subtrees, List.mem_cons, List.mem_append] at hr
    rw [size]
    rcases hr with rfl | hr | hr
    · simp only [ofRose, size]
      omega
    · have := ihc hr
      omega
    · have := ihs hr
      omega

/-- The handles of a forest, in post-order. -/
def postHandles (f : Forest Entry) : List Handle := f.postorder.map (·.handle)

theorem postHandles_cons (e : Entry) (cs ss : Forest Entry) :
    postHandles (.cons e cs ss) = cs.postHandles ++ e.handle :: ss.postHandles := by
  rw [postHandles, postorder, List.map_append, List.map_cons]
  rfl

theorem postHandles_perm (f : Forest Entry) : f.postHandles.Perm f.handles :=
  (postorder_perm_preorder f).map _

theorem sublist_postHandles {f : Forest Entry} {r : Rose Entry} (hr : r ∈ f.subtrees) :
    (r.children.postHandles ++ [r.label.handle]).Sublist f.postHandles := by
  have inside := (isInfix_postorder hr).map (·.handle)
  rw [List.map_append, List.map_singleton] at inside
  exact inside.sublist

/-- A longest way down goes through the tree with the deepest children. -/
theorem max_depth_roots (f : Forest α) :
    (f.roots.map fun r => 1 + r.children.depth).max?.getD 0 = f.depth := by
  induction f with
  | nil => rfl
  | cons a cs ss _ ih =>
    rw [roots, List.map_cons, List.max?_cons, Option.getD_some, depth, ← ih]
    cases (ss.roots.map fun r => 1 + r.children.depth).max? with
    | none => simp
    | some d => rfl

end Forest

namespace Arena

variable {a : Arena} {t : Tree} {h : Handle} {parent : Option Handle} {f : Forest Entry}

/-! ## Loops over a stack -/

theorem contains_of_node? {n : Link} (node : a.node? h = some n) : a.contains h := by
  rw [Arena.contains, node]
  rfl

theorem children_of_node? {n : Link} (node : a.node? h = some n) : a.children h = n.children := by
  rw [Arena.children, node]
  rfl

/-- The nodes with these handles. -/
def nodesAt (a : Arena) (hs : List Handle) : List (Handle × Link) :=
  hs.filterMap fun h => (a.node? h).map (h, ·)

theorem nodesAt_append (a : Arena) (hs hs' : List Handle) :
    a.nodesAt (hs ++ hs') = a.nodesAt hs ++ a.nodesAt hs' := List.filterMap_append

theorem nodesAt_cons {n : Link} (node : a.node? h = some n) (hs : List Handle) :
    a.nodesAt (h :: hs) = (h, n) :: a.nodesAt hs := by
  rw [nodesAt, List.filterMap_cons, node]
  rfl

theorem node?_of_mem_nodesAt {hs : List Handle} {x : Handle × Link} (hx : x ∈ a.nodesAt hs) :
    a.node? x.1 = some x.2 := by
  obtain ⟨h, -, found⟩ := List.mem_filterMap.1 hx
  obtain ⟨n, node, rfl⟩ := Option.map_eq_some_iff.1 found
  exact node

/-- A node as an entry, without its links. -/
def entryOf (x : Handle × Link) : Entry := ⟨x.1, x.2.data⟩

theorem map_entryOf_nodesAt {es : List Entry} (known : ∀ e ∈ es, ∃ n, a.node? e.handle = some n ∧ n.data = e.data) :
    (a.nodesAt (es.map (·.handle))).map entryOf = es := by
  induction es with
  | nil => rfl
  | cons e es ih =>
    obtain ⟨⟨n, node, data⟩, rest⟩ := List.forall_mem_cons.1 known
    rw [List.map_cons, nodesAt_cons node, List.map_cons, ih rest, entryOf, data]

theorem map_fst_nodesAt {es : List Entry} (known : ∀ e ∈ es, ∃ n, a.node? e.handle = some n ∧ n.data = e.data) :
    (a.nodesAt (es.map (·.handle))).map Prod.fst = es.map (·.handle) := by
  have entries := congrArg (List.map (·.handle)) (map_entryOf_nodesAt known)
  rwa [List.map_map] at entries

theorem mapM_eq_some_map {α β : Type} {f : α → Option β} {g : α → β} {l : List α}
    (all : ∀ x ∈ l, f x = some (g x)) : l.mapM f = some (l.map g) := by
  induction l with
  | nil => rfl
  | cons x l ih =>
    obtain ⟨first, rest⟩ := List.forall_mem_cons.1 all
    rw [List.mapM_cons, first, ih rest]
    rfl

/-- The loop puts out the trees on top of the stack in pre-order and goes on with the rest. -/
theorem descendantsFrom_of_holds (hf : a.Holds parent f) (steps : Nat) (out stack : List Handle) :
    a.descendantsFrom (f.size + steps) out (f.rootLabels.map (·.handle) ++ stack) =
      a.descendantsFrom steps (out ++ f.handles) stack := by
  induction f generalizing parent steps out stack with
  | nil => simp [Forest.rootLabels, Forest.size]
  | cons e cs ss ihc ihs =>
    obtain ⟨he, hcs, hss⟩ := hf
    rw [Forest.rootLabels, List.map_cons, List.cons_append, Forest.size_cons_add, descendantsFrom,
      if_pos (contains_of_node? he), children_of_node? he, ihc hcs, ihs hss, Forest.handles_cons]
    simp only [List.append_assoc, List.cons_append, List.nil_append]

/-- The iterator gives the trees on top of the stack in pre-order and goes on with the rest. -/
theorem collect_nextPreorder (hf : a.Holds parent f) (steps : Nat) (stack : List Handle) :
    collect (fun s => some (a.nextPreorder s)) (f.size + steps) (f.rootLabels.map (·.handle) ++ stack) =
      (collect (fun s => some (a.nextPreorder s)) steps stack).map (a.nodesAt f.handles ++ ·) := by
  induction f generalizing parent steps stack with
  | nil =>
    rw [Forest.rootLabels, List.map_nil, List.nil_append, Forest.size, Nat.zero_add]
    exact Option.map_id'.symm
  | cons e cs ss ihc ihs =>
    obtain ⟨he, hcs, hss⟩ := hf
    have next : a.nextPreorder ((Forest.cons e cs ss).rootLabels.map (·.handle) ++ stack) =
        some ((e.handle, ⟨e.data, parent, cs.rootLabels.map (·.handle)⟩),
          cs.rootLabels.map (·.handle) ++ (ss.rootLabels.map (·.handle) ++ stack)) := by
      rw [Forest.rootLabels, List.map_cons, List.cons_append, nextPreorder, he]
    rw [Forest.size_cons_add, collect, next, Forest.handles_cons, nodesAt_cons he, nodesAt_append]
    simp only [Option.bind_eq_bind, Option.bind_some, ihc hcs, ihs hss, Option.map_map]
    cases collect (fun s => some (a.nextPreorder s)) steps stack with
    | none => rfl
    | some rest => simp

/-- The trees of a forest on a stack for their first visit. -/
def unvisited (f : Forest Entry) : List (Handle × Bool) := (f.rootLabels.map (·.handle)).map (·, false)

theorem unvisited_cons (e : Entry) (cs ss : Forest Entry) :
    unvisited (.cons e cs ss) = (e.handle, false) :: unvisited ss := rfl

/-- A node that is met first leaves its handle below its children, which come before it. -/
theorem nextPostorder_unvisited {e : Entry} {cs : Forest Entry}
    (he : a.node? e.handle = some ⟨e.data, parent, cs.rootLabels.map (·.handle)⟩) (steps : Nat)
    (stack : List (Handle × Bool)) : a.nextPostorder (steps + 1) ((e.handle, false) :: stack) =
      a.nextPostorder steps (unvisited cs ++ (e.handle, true) :: stack) := by
  rw [nextPostorder, he]
  exact if_neg (by simp)

theorem nextPostorder_visited {n : Link} (node : a.node? h = some n) (steps : Nat) (stack : List (Handle × Bool)) :
    a.nextPostorder (steps + 1) ((h, true) :: stack) = some (some ((h, n), stack)) := by
  rw [nextPostorder, node]
  exact if_pos rfl

/-- More steps find the same. -/
theorem nextPostorder_succ {steps : Nat} {stack : List (Handle × Bool)}
    {r : Option ((Handle × Link) × List (Handle × Bool))} (found : a.nextPostorder steps stack = some r) :
    a.nextPostorder (steps + 1) stack = some r := by
  induction steps generalizing stack with
  | zero =>
    cases stack with
    | nil => exact found
    | cons x stack => cases found
  | succ steps ih =>
    cases stack with
    | nil => exact found
    | cons x stack =>
      obtain ⟨h, visited⟩ := x
      rw [nextPostorder] at found ⊢
      cases node : a.node? h with
      | none =>
        rw [node] at found
        exact ih found
      | some n =>
        rw [node] at found
        dsimp only at found ⊢
        split
        · rename_i second
          rwa [if_pos second] at found
        · rename_i first
          rw [if_neg first] at found
          exact ih found

/-- In as many steps as a forest is deep, and one more, the first node above a visited one is found. -/
theorem exists_nextPostorder (hf : a.Holds parent f) {n : Link} (node : a.node? h = some n) {steps : Nat}
    (enough : f.depth ≤ steps) (stack : List (Handle × Bool)) :
    ∃ r, a.nextPostorder (steps + 1) (unvisited f ++ (h, true) :: stack) = some r := by
  induction f generalizing parent h n steps stack with
  | nil => exact ⟨_, nextPostorder_visited node steps stack⟩
  | cons e cs ss ihc _ =>
    obtain ⟨he, hcs, -⟩ := hf
    rw [Forest.depth] at enough
    obtain ⟨fewer, rfl⟩ : ∃ fewer, steps = fewer + 1 := ⟨steps - 1, by omega⟩
    rw [unvisited_cons, List.cons_append, nextPostorder_unvisited he]
    exact ihc hcs he (by omega) _

theorem collect_congr {α σ : Type} {next : σ → Option (Option (α × σ))} {s s' : σ}
    (same : next s = next s') (steps : Nat) : collect next steps s = collect next steps s' := by
  cases steps with
  | zero => rfl
  | succ steps => rw [collect, same, ← collect]

/-- The iterator gives the trees on top of the stack in post-order and goes on with the rest. -/
theorem collect_nextPostorder (hf : a.Holds parent f) {inner : Nat} (enough : f.depth < inner) (steps : Nat)
    (stack : List (Handle × Bool)) :
    collect (a.nextPostorder inner) (f.size + steps) (unvisited f ++ stack) =
      (collect (a.nextPostorder inner) steps stack).map (a.nodesAt f.postHandles ++ ·) := by
  induction f generalizing parent steps stack with
  | nil =>
    rw [Forest.size, Nat.zero_add]
    exact Option.map_id'.symm
  | cons e cs ss ihc ihs =>
    obtain ⟨he, hcs, hss⟩ := hf
    rw [Forest.depth] at enough
    obtain ⟨fewer, rfl⟩ : ∃ fewer, inner = fewer + 2 := ⟨inner - 2, by omega⟩
    let later := unvisited ss ++ stack
    have first : a.nextPostorder (fewer + 2) ((e.handle, false) :: later) =
        a.nextPostorder (fewer + 2) (unvisited cs ++ (e.handle, true) :: later) := by
      obtain ⟨r, found⟩ : ∃ r, a.nextPostorder (fewer + 1) (unvisited cs ++ (e.handle, true) :: later) = some r :=
        exists_nextPostorder hcs he (by omega) later
      rw [nextPostorder_unvisited he, found, nextPostorder_succ found]
    have visited : collect (a.nextPostorder (fewer + 2)) (ss.size + steps + 1) ((e.handle, true) :: later) =
        (collect (a.nextPostorder (fewer + 2)) (ss.size + steps) later).map
          ((e.handle, ⟨e.data, parent, cs.rootLabels.map (·.handle)⟩) :: ·) := by
      rw [collect, nextPostorder_visited he]
      simp only [Option.bind_eq_bind, Option.bind_some]
      cases collect (a.nextPostorder (fewer + 2)) (ss.size + steps) later <;> rfl
    rw [unvisited_cons, List.cons_append, Forest.size_cons_add, Nat.add_assoc, collect_congr first, ihc hcs (by omega), visited,
      ihs hss (by omega), Forest.postHandles_cons, nodesAt_append, nodesAt_cons he]
    cases collect (a.nextPostorder (fewer + 2)) steps stack with
    | none => rfl
    | some rest => simp

theorem depthBelow_of_holds (hf : a.Holds parent f) {steps : Nat} (enough : f.depth ≤ steps) :
    (f.rootLabels.map (·.handle)).mapM (a.depthBelow steps) = some (f.roots.map fun r => 1 + r.children.depth) := by
  induction f generalizing parent steps with
  | nil => rfl
  | cons e cs ss ihc ihs =>
    obtain ⟨he, hcs, hss⟩ := hf
    rw [Forest.depth] at enough
    obtain ⟨fewer, rfl⟩ : ∃ fewer, steps = fewer + 1 := ⟨steps - 1, by omega⟩
    have here : a.depthBelow (fewer + 1) e.handle = some (1 + cs.depth) := by
      rw [depthBelow, if_pos (contains_of_node? he), children_of_node? he, ihc hcs (by omega),
        ← Forest.max_depth_roots cs]
      rfl
    rw [Forest.rootLabels, List.map_cons, List.mapM_cons, here, ihs hss (by omega), Forest.roots]
    rfl

/-! ## Ways down -/

/-- A way from the root down, each node a child of the one before. -/
def IsWay (a : Arena) (way : List Handle) : Prop :=
  way.head? = some a.root ∧ way.IsChain fun p c => c ∈ a.children p

theorem Holds.children_of_mem_roots (hf : a.Holds parent f) {r : Rose Entry} (hr : r ∈ f.roots) :
    a.children r.label.handle = r.children.rootLabels.map (·.handle) ∧
      a.Holds (some r.label.handle) r.children := by
  obtain ⟨⟨p, node⟩, below⟩ := hf.node (Forest.mem_subtrees_of_mem_roots hr (Or.inl rfl))
  exact ⟨children_of_node? node, below⟩

/-- No way down is longer than the forest is deep. -/
theorem Holds.length_le_depth (hf : a.Holds parent f) {way : List Handle}
    (start : h ∈ f.rootLabels.map (·.handle))
    (chain : (h :: way).IsChain fun p c => c ∈ a.children p) : (h :: way).length ≤ f.depth := by
  induction way generalizing f parent h with
  | nil =>
    obtain ⟨e, he, rfl⟩ := List.mem_map.1 start
    cases f with
    | nil => cases he
    | cons x cs ss =>
      rw [Forest.depth, List.length_singleton]
      omega
  | cons c way ih =>
    obtain ⟨e, he, rfl⟩ := List.mem_map.1 start
    rw [Forest.rootLabels_eq_map_roots] at he
    obtain ⟨r, hr, rfl⟩ := List.mem_map.1 he
    obtain ⟨children, below⟩ := hf.children_of_mem_roots hr
    obtain ⟨child, rest⟩ := List.isChain_cons_cons.1 chain
    rw [children] at child
    have shorter := ih below child rest
    have deeper := Forest.depth_lt_of_mem_subtrees (Forest.mem_subtrees_of_mem_roots hr (Or.inl rfl))
    rw [List.length_cons]
    omega

/-- Some way down is as long as the forest is deep. -/
theorem Holds.exists_way (hf : a.Holds parent f) (some : f ≠ .nil) :
    ∃ h way, h ∈ f.rootLabels.map (·.handle) ∧ ((h :: way).IsChain fun p c => c ∈ a.children p) ∧
      (h :: way).length = f.depth := by
  induction f generalizing parent with
  | nil => exact absurd rfl some
  | cons e cs ss ihc ihs =>
    obtain ⟨he, hcs, hss⟩ := hf
    rw [Forest.depth, Forest.rootLabels, List.map_cons]
    by_cases deeper : 1 + cs.depth ≤ ss.depth
    · have others : ss ≠ .nil := by
        rintro rfl
        rw [Forest.depth] at deeper
        omega
      obtain ⟨h, way, start, chain, length⟩ := ihs hss others
      exact ⟨h, way, List.mem_cons_of_mem _ start, chain, by omega⟩
    · cases cs with
      | nil =>
        refine ⟨e.handle, [], List.mem_cons_self, List.IsChain.singleton _, ?_⟩
        rw [Forest.depth] at deeper ⊢
        simp only [List.length_cons, List.length_nil]
        omega
      | cons x xs ys =>
        have filled : Forest.cons x xs ys ≠ .nil := by simp
        obtain ⟨h, way, start, chain, length⟩ := ihc hcs filled
        have child : h ∈ a.children e.handle := by
          rw [children_of_node? he]
          exact start
        refine ⟨e.handle, h :: way, List.mem_cons_self, List.isChain_cons_cons.2 ⟨child, chain⟩, ?_⟩
        rw [List.length_cons]
        omega

namespace Represents

variable (ha : a.Represents t)

include ha

/-- The steps suffice for as many nodes as there are, and to end. -/
theorem exists_steps {count : Nat} (fits : count ≤ t.forest.size) : ∃ more, a.steps = count + (more + 1) := by
  have slots := ha.sound.size_le
  refine ⟨t.next - count, ?_⟩
  rw [Arena.steps, ha.next]
  omega

/-- The loop up from a node collects the keys of its way. The induction shortens the way at its end,
where the loop starts. -/
theorem keysAbove_of_trail (steps : Nat) (keys : List String) {way : List Entry} {e : Entry}
    (inside : way ∈ t.forest.trails) (last : way.getLast? = some e) :
    a.keysAbove (way.length + steps) keys e.handle = some (way.tail.map (·.data.key) ++ keys) := by
  induction way using List.reverseRecOn generalizing e keys with
  | nil => cases last
  | append_singleton front e' ih =>
    rw [List.getLast?_concat] at last
    cases last
    obtain ⟨there, trail⟩ := ha.sound.mem_trails_iff.1 ⟨inside, List.getLast?_concat⟩
    have above : a.parent? e'.handle = front.getLast?.map (·.handle) := by
      rw [ha.parent?_eq, Tree.parent?, trail, List.dropLast_concat]
    rw [List.length_append, List.length_singleton, Nat.add_right_comm, keysAbove, above]
    cases hp : front.getLast? with
    | none =>
      rw [List.getLast?_eq_none_iff.1 hp]
      rfl
    | some p =>
      have nonempty : front ≠ [] := by
        rintro rfl
        cases hp
      obtain ⟨first, rest, rfl⟩ := List.exists_cons_of_ne_nil nonempty
      have shorter := Forest.mem_trails_of_isPrefix inside (List.prefix_append _ _) nonempty
      obtain ⟨r, hr, same⟩ := List.mem_map.1 (Forest.map_label_subtrees t.forest ▸ Tree.mem_entries_iff.1 there)
      obtain ⟨⟨q, node⟩, -⟩ := ha.holds.node hr
      rw [same] at node
      simp only [Option.map_some, node]
      rw [ih _ shorter hp]
      simp

theorem keyPath_eq (live : a.contains h) : a.keyPath h = some (t.keyPath h) := by
  obtain ⟨e, there, rfl⟩ := ha.exists_entry live
  obtain ⟨inside, last⟩ := ha.sound.mem_trails_iff.2 ⟨Tree.mem_entries_iff.2 there, rfl⟩
  have length := (Forest.sublist_preorder_of_mem_trails inside).length_le
  rw [Forest.length_preorder] at length
  obtain ⟨more, steps⟩ := ha.exists_steps length
  rw [keyPath, steps, ha.keysAbove_of_trail _ [] inside last, List.append_nil]
  rfl

theorem pathText_eq (live : a.contains h) : a.pathText h = some (t.pathText h) := by
  obtain ⟨p, node⟩ := ha.node (Tree.find?_root t)
  rw [pathText, ha.keyPath_eq live, ha.root, node]
  rfl

/-! ## All walks -/

theorem len_eq_size : a.len = t.size := by
  have same : ((List.range a.slots.length).filter a.contains).Perm t.forest.handles := by
    refine (List.perm_ext_iff_of_nodup (List.nodup_range.filter _) ha.sound.distinct).2 fun h => ?_
    rw [List.mem_filter, List.mem_range, ha.contains_eq, Tree.contains_iff, ha.next]
    exact and_iff_right_of_imp (ha.sound.below h)
  rw [a.len_eq, same.length_eq, Forest.handles, List.length_map, Tree.size, Tree.entries,
    ← Rose.preorder_ofRose]
  rfl

theorem descendants_eq {r : Rose Entry} (hr : t.find? h = some r) :
    a.descendants h = some (r.preorder.map (·.handle)) := by
  obtain rfl := Tree.find?_handle hr
  obtain ⟨p, node⟩ := ha.node hr
  have held : a.Holds p (.ofRose r) := ⟨node, ha.below hr, trivial⟩
  obtain ⟨more, steps⟩ := ha.exists_steps (Forest.size_le_of_mem_subtrees (Tree.find?_mem hr))
  have loop := descendantsFrom_of_holds held (more + 1) [] []
  rw [List.append_nil, List.nil_append] at loop
  rw [descendants, steps, ← Rose.preorder_ofRose]
  refine loop.trans ?_
  rw [descendantsFrom]
  rfl

theorem iter_eq : a.iter = some (a.nodesAt t.forest.handles) := by
  obtain ⟨more, steps⟩ := ha.exists_steps (Nat.le_refl _)
  have loop := collect_nextPreorder ha.holds (more + 1) []
  rw [List.append_nil] at loop
  rw [iter, ha.root, steps]
  refine loop.trans ?_
  rw [collect]
  simp [nextPreorder]

theorem iterPostorder_eq : a.iterPostorder = some (a.nodesAt (t.forest.postHandles)) := by
  obtain ⟨more, steps⟩ := ha.exists_steps (Nat.le_refl _)
  have enough : t.forest.depth < a.steps := by
    rw [steps]
    exact Nat.lt_of_le_of_lt t.forest.depth_le_size (by omega)
  have loop := collect_nextPostorder ha.holds enough (more + 1) []
  rw [List.append_nil, ← steps] at loop
  rw [iterPostorder, ha.root]
  refine loop.trans ?_
  rw [collect]
  simp [nextPostorder]

theorem depth_eq : a.depth = some t.depth := by
  have deep : t.forest.depth = 1 + t.top.children.depth := Nat.max_eq_left (Nat.zero_le _)
  have enough : t.top.children.depth ≤ a.slots.length := by
    have within := ha.sound.depth_le
    rw [← ha.next, deep] at within
    omega
  have below := depthBelow_of_holds (ha.below (Tree.find?_root t)) enough
  have live := ha.holds.contains (x := t.root) List.mem_cons_self
  have children : a.children t.root = t.top.children.rootLabels.map (·.handle) := by
    rw [ha.children_eq, Tree.children, Tree.below_of_find? (Tree.find?_root t)]
  rw [Arena.depth, ha.root, Arena.steps, depthBelow, if_pos live, children, below]
  show some (1 + _) = _
  rw [Forest.max_depth_roots, Tree.depth, deep]

theorem node_of_mem {e : Entry} (he : e ∈ t.forest.preorder) :
    ∃ n, a.node? e.handle = some n ∧ n.data = e.data := by
  rw [← Forest.map_label_subtrees, List.mem_map] at he
  obtain ⟨r, hr, rfl⟩ := he
  obtain ⟨⟨p, node⟩, -⟩ := ha.holds.node hr
  exact ⟨_, node, rfl⟩

/-- What is reached from a node by links down is below it in the tree. -/
theorem mem_below_of_reached {r : Rose Entry} (hr : t.find? h = some r) {d : Handle}
    (way : Relation.TransGen (fun p c => c ∈ a.children p) h d) : d ∈ r.children.handles := by
  have step {p c : Handle} {s : Rose Entry} (hs : t.find? p = some s) (hc : c ∈ a.children p) :
      c ∈ s.children.handles := by
    rw [ha.children_eq, Tree.children, Tree.below_of_find? hs] at hc
    obtain ⟨e, he, rfl⟩ := List.mem_map.1 hc
    exact List.mem_map_of_mem (Forest.mem_preorder_of_mem_rootLabels he)
  induction way with
  | single hc => exact step hr hc
  | tail _ hc below =>
    obtain ⟨e, he, rfl⟩ := Forest.mem_handles.1 below
    rw [← Forest.map_label_subtrees, List.mem_map] at he
    obtain ⟨s, hs, rfl⟩ := he
    have inside : s ∈ t.forest.subtrees := Forest.mem_subtrees_of_children (Tree.find?_mem hr) hs
    exact Forest.mem_handles_of_mem_below hs (step (ha.sound.find?_of_mem inside) hc)

end Represents

/-- Every live node, once. -/
structure Covers (a : Arena) (hs : List Handle) : Prop where
  once : hs.Nodup
  live : ∀ h, h ∈ hs ↔ a.contains h
  length : hs.length = a.len

/-- What the walks over an arena give, `top` being the tree that it shows. -/
structure Traversed (a : Arena) (top : Rose Entry) : Prop where
  extract : a.extract a.root = some (top.map (·.data))
  preorder : ∃ nodes, a.iter = some nodes ∧ (∀ x ∈ nodes, a.node? x.1 = some x.2) ∧
    nodes.map entryOf = top.preorder ∧ a.Covers (nodes.map Prod.fst) ∧
    a.descendants a.root = some (nodes.map Prod.fst)
  descendants : ∀ h, a.contains h → ∃ r : Rose Entry, r ∈ (Forest.ofRose top).subtrees ∧
    r.label.handle = h ∧ a.extract h = some (r.map (·.data)) ∧
      a.descendants h = some (r.preorder.map (·.handle))
  stale : ∀ h, ¬a.contains h → a.descendants h = some []
  /-- What is below a node comes before it, and siblings come in their order. -/
  postorder : ∃ nodes, a.iterPostorder = some nodes ∧ (∀ x ∈ nodes, a.node? x.1 = some x.2) ∧
    a.Covers (nodes.map Prod.fst) ∧
    (∀ h d, Relation.TransGen (fun p c => c ∈ a.children p) h d → [d, h].Sublist (nodes.map Prod.fst)) ∧
    ∀ h, (a.children h).Sublist (nodes.map Prod.fst)
  depth : ∃ d, a.depth = some d ∧ (∀ way, a.IsWay way → way.length ≤ d) ∧
    ∃ way, a.IsWay way ∧ way.length = d
  leaves : ∃ paths, a.leafPaths = some paths ∧
    paths.map some = ((top.preorder.map (·.handle)).filter fun h =>
      h != a.root && (a.children h).isEmpty).map a.pathText

namespace Represents

variable (ha : a.Represents t)

include ha

theorem covers_of_perm {hs : List Handle} (perm : hs.Perm t.forest.handles) : a.Covers hs where
  once := perm.nodup_iff.2 ha.sound.distinct
  live h := by
    rw [perm.mem_iff, ha.contains_eq, Tree.contains_iff]
  length := by
    rw [perm.length_eq, ha.len_eq_size, Forest.handles, List.length_map, Tree.size, Tree.entries,
      ← Rose.preorder_ofRose]
    rfl

theorem below_before {d : Handle} (way : Relation.TransGen (fun p c => c ∈ a.children p) h d) :
    [d, h].Sublist (t.forest.postHandles) := by
  obtain ⟨c, hc, -⟩ := Relation.TransGen.head'_iff.1 way
  rw [ha.children_eq] at hc
  obtain ⟨r, hr, -⟩ := Tree.mem_children_iff.1 hc
  have below : d ∈ r.children.postHandles :=
    r.children.postHandles_perm.mem_iff.2 (ha.mem_below_of_reached hr way)
  have pair : ([d] ++ [h]).Sublist (r.children.postHandles ++ [h]) :=
    (List.singleton_sublist.2 below).append (List.Sublist.refl _)
  have whole := Forest.sublist_postHandles (Tree.find?_mem hr)
  rw [Tree.find?_handle hr] at whole
  exact pair.trans whole

theorem children_sublist (h : Handle) : (a.children h).Sublist (t.forest.postHandles) := by
  rw [ha.children_eq, Tree.children, Tree.below]
  split
  · rename_i r hr
    have siblings : (r.children.rootLabels.map (·.handle)).Sublist (r.children.postHandles) :=
      (Forest.rootLabels_sublist_postorder r.children).map _
    exact (siblings.trans (List.sublist_append_left _ _)).trans
      (Forest.sublist_postHandles (Tree.find?_mem hr))
  · exact List.nil_sublist _

theorem length_le_of_isWay {way : List Handle} (hw : a.IsWay way) : way.length ≤ t.depth := by
  obtain ⟨first, chain⟩ := hw
  obtain ⟨rest, rfl⟩ := List.head?_eq_some_iff.1 first
  refine ha.holds.length_le_depth ?_ chain
  rw [ha.root]
  exact List.mem_cons_self

theorem exists_isWay : ∃ way, a.IsWay way ∧ way.length = t.depth := by
  obtain ⟨h, way, start, chain, length⟩ := ha.holds.exists_way nofun
  have first : h = t.root := List.mem_singleton.1 start
  refine ⟨h :: way, ⟨?_, chain⟩, length⟩
  rw [first, ha.root]
  rfl

theorem leafPaths_eq : a.leafPaths = some ((t.forest.handles.filter fun h =>
    h != a.root && (a.children h).isEmpty).map t.pathText) := by
  have fst : (a.nodesAt t.forest.handles).map Prod.fst = t.forest.handles :=
    map_fst_nodesAt fun e he => ha.node_of_mem he
  rw [leafPaths, ha.iter_eq]
  show List.mapM _ (List.filter _ (a.nodesAt t.forest.handles)) = _
  rw [mapM_eq_some_map (g := fun x => t.pathText x.1)]
  · nth_rewrite 2 [← fst]
    rw [List.filter_map, List.map_map]
    rfl
  · intro x hx
    exact ha.pathText_eq (contains_of_node? (node?_of_mem_nodesAt (List.mem_of_mem_filter hx)))

theorem traversed : a.Traversed t.top where
  extract := ha.extract_root
  preorder := by
    have known : ∀ e ∈ t.forest.preorder, ∃ n, a.node? e.handle = some n ∧ n.data = e.data :=
      fun e => ha.node_of_mem
    refine ⟨_, ha.iter_eq, fun x => node?_of_mem_nodesAt, ?_, ?_⟩
    · rw [Forest.handles, map_entryOf_nodesAt known]
      exact Rose.preorder_ofRose t.top
    · rw [Forest.handles, map_fst_nodesAt known]
      refine ⟨ha.covers_of_perm (List.Perm.refl _), ?_⟩
      rw [ha.root, Tree.forest, Rose.preorder_ofRose]
      exact ha.descendants_eq (Tree.find?_root t)
  descendants h live := by
    rw [ha.contains_eq] at live
    obtain ⟨r, hr⟩ := Option.isSome_iff_exists.1 live
    refine ⟨r, Tree.find?_mem hr, Tree.find?_handle hr, ?_, ha.descendants_eq hr⟩
    rw [ha.extract_eq, Tree.extract, hr, Option.map_some]
  stale h stale := by
    rw [Arena.descendants, Arena.steps, descendantsFrom, if_neg stale, descendantsFrom]
  postorder := by
    have known : ∀ e ∈ t.forest.postorder, ∃ n, a.node? e.handle = some n ∧ n.data = e.data :=
      fun e he => ha.node_of_mem ((Forest.postorder_perm_preorder _).mem_iff.1 he)
    refine ⟨_, ha.iterPostorder_eq, fun x => node?_of_mem_nodesAt, ?_⟩
    rw [Forest.postHandles, map_fst_nodesAt known]
    exact ⟨ha.covers_of_perm t.forest.postHandles_perm, fun h d => ha.below_before, ha.children_sublist⟩
  depth := ⟨t.depth, ha.depth_eq, fun way => ha.length_le_of_isWay, ha.exists_isWay⟩
  leaves := by
    refine ⟨_, ha.leafPaths_eq, ?_⟩
    rw [List.map_map, ← Rose.preorder_ofRose]
    refine List.map_congr_left fun h hh => ?_
    have inside : h ∈ t.forest.handles := List.mem_of_mem_filter hh
    exact (ha.pathText_eq (ha.holds.contains inside)).symm

end Represents

/-- **All walks over an arena agree.** After every run of changes of a new arena every walk ends, and
the walks give the nodes of the one tree that the arena shows: in pre-order from the root and from
every node, in post-order, with the length of a longest way down, and with the childless nodes below
the root. -/
theorem traversed_run (kind : TreeKind) (data : NodeData) (changes : List TreeChange) :
    let a := (withRoot kind data).run changes
    a.Traversed a.tree.top := by
  intro a
  have ha := (represents_withRoot kind data).run changes
  rw [ha.tree_eq]
  exact ha.traversed

end Arena

end LayeredConfig
