/-!
# Ordered forests

A forest is a sequence of trees, each a label over a forest of children. It is given by its first
tree's label, that tree's children and the remaining trees, so every function below is one
structural recursion and every law one induction. A single tree is a `Rose`.
-/

namespace LayeredConfig

/-- A sequence of ordered trees. -/
inductive Forest (α : Type) where
  | nil
  | cons (label : α) (children siblings : Forest α)
  deriving DecidableEq, Repr

/-- One ordered tree. -/
structure Rose (α : Type) where
  label : α
  children : Forest α := .nil
  deriving DecidableEq, Repr

namespace Forest

variable {α β : Type}

instance : Inhabited (Forest α) := ⟨.nil⟩

/-- The forest of one tree. -/
def ofRose (r : Rose α) : Forest α := .cons r.label r.children .nil

/-- The trees of a forest, from left to right. -/
def roots : Forest α → List (Rose α)
  | .nil => []
  | .cons a cs ss => ⟨a, cs⟩ :: ss.roots

/-- The forest with these trees. -/
def ofRoots : List (Rose α) → Forest α
  | [] => .nil
  | r :: rs => .cons r.label r.children (ofRoots rs)

@[simp] theorem roots_ofRoots (rs : List (Rose α)) : (ofRoots rs).roots = rs := by
  induction rs with
  | nil => rfl
  | cons r rs ih => simp [ofRoots, roots, ih]

@[simp] theorem ofRoots_roots (f : Forest α) : ofRoots f.roots = f := by
  induction f with
  | nil => rfl
  | cons a cs ss _ ih => simp [ofRoots, roots, ih]

/-- The labels of the trees, from left to right. -/
def rootLabels : Forest α → List α
  | .nil => []
  | .cons a _ ss => a :: ss.rootLabels

/-- Whether a forest has no tree. -/
def isEmpty : Forest α → Bool
  | .nil => true
  | .cons .. => false

/-- Two forests side by side. -/
def append : Forest α → Forest α → Forest α
  | .nil, g => g
  | .cons a cs ss, g => .cons a cs (ss.append g)

instance : Append (Forest α) := ⟨append⟩

@[simp] theorem nil_append (g : Forest α) : Forest.nil ++ g = g := rfl

@[simp] theorem cons_append (a : α) (cs ss g : Forest α) :
    Forest.cons a cs ss ++ g = .cons a cs (ss ++ g) := rfl

@[simp] theorem roots_append (f g : Forest α) : (f ++ g).roots = f.roots ++ g.roots := by
  induction f with
  | nil => rfl
  | cons a cs ss _ ih => simp [roots, ih]

/-- A forest of the same shape with other labels. -/
def map (h : α → β) : Forest α → Forest β
  | .nil => .nil
  | .cons a cs ss => .cons (h a) (cs.map h) (ss.map h)

/-- All labels, each before those below it. -/
def preorder : Forest α → List α
  | .nil => []
  | .cons a cs ss => a :: (cs.preorder ++ ss.preorder)

/-- All labels, each after those below it. -/
def postorder : Forest α → List α
  | .nil => []
  | .cons a cs ss => cs.postorder ++ a :: ss.postorder

@[simp] theorem preorder_append (f g : Forest α) :
    (f ++ g).preorder = f.preorder ++ g.preorder := by
  induction f with
  | nil => rfl
  | cons a cs ss _ ih => simp [preorder, ih]

@[simp] theorem preorder_map (h : α → β) (f : Forest α) :
    (f.map h).preorder = f.preorder.map h := by
  induction f with
  | nil => rfl
  | cons a cs ss ihc ihs => simp [map, preorder, ihc, ihs]

/-- The subtrees of a forest, each before those below it. -/
def subtrees : Forest α → List (Rose α)
  | .nil => []
  | .cons a cs ss => ⟨a, cs⟩ :: (cs.subtrees ++ ss.subtrees)

@[simp] theorem map_label_subtrees (f : Forest α) : f.subtrees.map Rose.label = f.preorder := by
  induction f with
  | nil => rfl
  | cons a cs ss ihc ihs => simp [subtrees, preorder, ihc, ihs]

/-- The number of labels. -/
def size : Forest α → Nat
  | .nil => 0
  | .cons _ cs ss => 1 + cs.size + ss.size

theorem length_preorder (f : Forest α) : f.preorder.length = f.size := by
  induction f with
  | nil => rfl
  | cons a cs ss ihc ihs => simp [preorder, size, ihc, ihs]; omega

/-- The number of labels on a longest way down. -/
def depth : Forest α → Nat
  | .nil => 0
  | .cons _ cs ss => max (1 + cs.depth) ss.depth

/-- The first tree, in pre-order, whose label satisfies `p`. -/
def find? (p : α → Bool) : Forest α → Option (Rose α)
  | .nil => none
  | .cons a cs ss => if p a then some ⟨a, cs⟩ else (cs.find? p).or (ss.find? p)

/-- The labels from a tree of the forest down to the first label, in pre-order, that satisfies
`p`. -/
def trail? (p : α → Bool) : Forest α → Option (List α)
  | .nil => none
  | .cons a cs ss => if p a then some [a] else ((cs.trail? p).map (a :: ·)).or (ss.trail? p)

/-- The first of the trees, without those below them, whose label satisfies `p`. -/
def findRoot? (p : α → Bool) : Forest α → Option (Rose α)
  | .nil => none
  | .cons a cs ss => if p a then some ⟨a, cs⟩ else ss.findRoot? p

/-- The trees whose label satisfies `p`. -/
def filterRoots (p : α → Bool) : Forest α → Forest α
  | .nil => .nil
  | .cons a cs ss => if p a then .cons a cs (ss.filterRoots p) else ss.filterRoots p

/-- The forest `own` with the trees of another whose keys it lacks, one after the other. -/
def addMissing (key : α → String) (own : Forest α) : Forest α → Forest α
  | .nil => own
  | .cons a cs ss =>
    let own := if (own.findRoot? (key · == key a)).isSome then own else own ++ .cons a cs .nil
    addMissing key own ss

/-- The forest with a tree in place of the first that bears its key, or at the end. -/
def putRoot (key : α → String) (r : Rose α) : Forest α → Forest α
  | .nil => .cons r.label r.children .nil
  | .cons a cs ss =>
    if key a = key r.label then .cons r.label r.children ss else .cons a cs (putRoot key r ss)

/-- The forest `base` with the trees of another put into it, one after the other. -/
def putAll (key : α → String) (base : Forest α) : Forest α → Forest α
  | .nil => base
  | .cons a cs ss => putAll key (base.putRoot key ⟨a, cs⟩) ss

/-- The forest with the labels of its trees changed by their position, counted from `first`. -/
def mapRoots (h : Nat → α → α) (first : Nat := 0) : Forest α → Forest α
  | .nil => .nil
  | .cons a cs ss => .cons (h first a) cs (ss.mapRoots h (first + 1))

/-- The forest with `h` applied to the labels that satisfy `p`. -/
def relabel (p : α → Bool) (h : α → α) (f : Forest α) : Forest α :=
  f.map fun a => if p a then h a else a

/-- The forest with `h` applied to the children of the labels that satisfy `p`; below such a label
nothing else changes. -/
def adjust (p : α → Bool) (h : Forest α → Forest α) : Forest α → Forest α
  | .nil => .nil
  | .cons a cs ss => .cons a (if p a then h cs else cs.adjust p h) (ss.adjust p h)

end Forest

namespace Rose

variable {α β : Type}

/-- All labels of a tree, each before those below it. -/
def preorder (r : Rose α) : List α := r.label :: r.children.preorder

/-- A tree of the same shape with other labels. -/
def map (h : α → β) (r : Rose α) : Rose β := ⟨h r.label, r.children.map h⟩

/-- The tree with `h` applied to the children of the labels that satisfy `p`. -/
def adjust (p : α → Bool) (h : Forest α → Forest α) (r : Rose α) : Rose α :=
  ⟨r.label, if p r.label then h r.children else r.children.adjust p h⟩

/-- The tree with `h` applied to the labels that satisfy `p`. -/
def relabel (p : α → Bool) (h : α → α) (r : Rose α) : Rose α :=
  r.map fun a => if p a then h a else a

end Rose

end LayeredConfig
