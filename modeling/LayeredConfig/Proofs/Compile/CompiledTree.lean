import LayeredConfig.Proofs.Compile.Substitution
import LayeredConfig.Proofs.Tree.Handles

/-!
# The values of a compiled tree

Where a document has a scalar, the tree compiled from it has what the last slot of that scalar reads
as (`valueAt?_of_scalar`), provided that the document is an object; otherwise the tree is empty.

* `at?_valuedAt` : a node of the document is found at its place in what the document resolves to,
  the items of arrays under new keys;
* `exists_resolved_of_compile`, `exists_reading_of_compile` : a compiled tree is what a reading of the
  expanded document gives.
-/

namespace LayeredConfig

namespace Draft

/-- The child that a step leads to. -/
def child? (d : Draft) (step : Step) : Option Draft :=
  match d.label.type, step with
  | .object, .key name => d.children.findRoot? (·.key == name)
  | .array, .item position => d.children.roots[position]?
  | _, _ => none

/-- The node at a place. -/
def at? (d : Draft) : Place → Option Draft
  | [] => some d
  | step :: place => (child? d step).bind (at? · place)

/-- A draft under another key. -/
def keyed (key : String) (d : Draft) : Draft := { d with label := { d.label with key } }

end Draft

/-- The value of the node at a place. -/
def Tree.valueAt? (t : Tree) (place : Place) : Option Scalar :=
  (Draft.at? (t.top.map (·.data)) place).bind (·.label.value)

/-! ## Places in what a document resolves to -/

/-- A node at a place, each scalar at and below it with what its last slot reads as. -/
def Rose.valuedAt (value : Slot → Option Scalar) (place : Place) (r : Rose Layered) : Draft :=
  let children := r.children.valued value r.label.shape place 0
  ⟨r.label.valued value place, if r.label.shape = .array then numberItems children else children⟩

section Valued

variable {value : Slot → Option Scalar}

theorem Layered.type_valued_eq_object {place : Place} {l : Layered} :
    (l.valued value place).type = .object ↔ l.shape = .object := by
  unfold valued
  split
  · simp [*]
  · simp [*]
  · rename_i history shape
    split
    · rename_i v _
      cases v <;> simp [shape, NodeData.ofScalar, Scalar.valueType]
    · simp [shape]

theorem Layered.type_valued_array {place : Place} {l : Layered} (h : l.shape = .array) :
    (l.valued value place).type = .array := by
  rw [valued, h]

theorem Layered.key_valued (place : Place) (l : Layered) : (l.valued value place).key = l.key := by
  unfold valued
  split
  · rfl
  · rfl
  · split <;> rfl

/-- The value of a scalar is what its last slot reads as. -/
theorem Layered.value_valued {place : Place} {l : Layered} {history : List (Option Scalar)}
    (h : l.shape = .scalar history) :
    (l.valued value place).value = value ⟨place, history.length - 1⟩ := by
  simp only [valued, h]
  cases value ⟨place, history.length - 1⟩ <;> rfl

theorem Forest.valued_cons (parent : Shape) (place : Place) (position : Nat) (l : Layered)
    (cs ss : Forest Layered) :
    (Forest.cons l cs ss).valued value parent place position =
      (ofRose ((⟨l, cs⟩ : Rose Layered).valuedAt value (place ++ [parent.step position l]))) ++
        ss.valued value parent place (position + 1) := rfl

theorem Forest.roots_valued (parent : Shape) (place : Place) (position i : Nat)
    (f : Forest Layered) :
    (f.valued value parent place position).roots[i]? =
      f.roots[i]?.map fun c => c.valuedAt value (place ++ [parent.step (position + i) c.label]) := by
  induction f generalizing position i with
  | nil => rfl
  | cons l cs ss _ ih =>
    cases i with
    | zero => rfl
    | succ i =>
      rw [show position + (i + 1) = position + 1 + i by omega]
      exact ih (position + 1) i

theorem Forest.findRoot?_valued (place : Place) (position : Nat) (name : String)
    (f : Forest Layered) :
    (f.valued value .object place position).findRoot? (NodeData.key · == name) =
      (f.findRoot? (Layered.key · == name)).map fun c =>
        c.valuedAt value (place ++ [.key name]) := by
  induction f generalizing position with
  | nil => rfl
  | cons l cs ss _ ih =>
    rw [valued_cons, ofRose, cons_append, findRoot?_cons, findRoot?_cons, nil_append, ih,
      Rose.valuedAt, Layered.key_valued]
    by_cases same : l.key = name
    · rw [if_pos same, if_pos same, Option.map_some, ← same]
      rfl
    · rw [if_neg same, if_neg same]

theorem Forest.roots_mapRoots {α : Type} (h : Nat → α → α) (first i : Nat) (f : Forest α) :
    (f.mapRoots h first).roots[i]? =
      f.roots[i]?.map fun r => ⟨h (first + i) r.label, r.children⟩ := by
  induction f generalizing first i with
  | nil => rfl
  | cons a cs ss _ ih =>
    cases i with
    | zero => rfl
    | succ i =>
      rw [show first + (i + 1) = first + 1 + i by omega]
      exact ih (first + 1) i

theorem Rose.child?_valuedAt (value : Slot → Option Scalar) (place : Place) {r c : Rose Layered}
    {step : Step} (h : r.child? step = some c) :
    ∃ key, Draft.child? (r.valuedAt value place) step =
      some ((c.valuedAt value (place ++ [step])).keyed key) := by
  unfold child? at h
  split at h
  · rename_i name shape
    have keep : (c.valuedAt value (place ++ [.key name])).keyed
        (c.valuedAt value (place ++ [.key name])).label.key =
        c.valuedAt value (place ++ [.key name]) := rfl
    refine ⟨_, Eq.trans ?_ (congrArg some keep.symm)⟩
    unfold Draft.child?
    simp only [valuedAt, Layered.type_valued_eq_object.2 shape, shape, reduceCtorEq, if_false]
    rw [Forest.findRoot?_valued, h]
    rfl
  · rename_i position shape
    refine ⟨itemKey position, ?_⟩
    unfold Draft.child?
    simp only [valuedAt, Layered.type_valued_array shape, shape, if_true]
    rw [numberItems, Forest.roots_mapRoots, Forest.roots_valued, h, Nat.zero_add]
    rfl
  · cases h

/-- A node of the document is found at its place, perhaps under another key. -/
theorem Rose.at?_valuedAt {place way : Place} {r n : Rose Layered} (h : r.at? way = some n)
    (key : String) : ∃ key', Draft.at? ((r.valuedAt value place).keyed key) way =
      some ((n.valuedAt value (place ++ way)).keyed key') := by
  induction way generalizing r place key with
  | nil =>
    cases h
    exact ⟨key, by rw [List.append_nil]; rfl⟩
  | cons step way ih =>
    obtain ⟨c, hc, hn⟩ := Option.bind_eq_some_iff.1 h
    obtain ⟨key', hkey⟩ := child?_valuedAt value place hc
    obtain ⟨key'', hd⟩ := ih hn key'
    refine ⟨key'', ?_⟩
    rw [List.append_cons, ← hd]
    exact congrArg (Option.bind · (Draft.at? · way)) hkey

end Valued

/-! ## Compiled trees -/

/-- In the tree made of an object's entries, a scalar has what its last slot reads as. -/
theorem Rose.valueAt?_of_scalar (value : Slot → Option Scalar) {document n : Rose Layered}
    {place : Place} {history : List (Option Scalar)} (object : document.label.shape = .object)
    (hn : document.at? place = some n) (shape : n.label.shape = .scalar history) :
    (Tree.ofDrafts .detached (document.valued value).children).valueAt? place =
      value ⟨place, history.length - 1⟩ := by
  have same : Draft.at? ((document.valuedAt value []).keyed (Tree.rootKeyOf .detached)) place =
      Draft.at? ⟨{ key := Tree.rootKeyOf .detached }, (document.valued value).children⟩ place := by
    rw [valuedAt, valued, object, if_neg (by simp), Layered.valued, object]
    rfl
  obtain ⟨key, hd⟩ : ∃ key, Draft.at?
      ((document.valuedAt value []).keyed (Tree.rootKeyOf .detached)) place =
        some ((n.valuedAt value place).keyed key) := at?_valuedAt hn (Tree.rootKeyOf .detached)
  rw [Tree.valueAt?, Tree.map_data_ofDrafts, ← same, hd]
  exact Layered.value_valued shape

/-- A tree without entries has no values. -/
theorem Tree.valueAt?_ofDrafts_nil (place : Place) :
    (Tree.ofDrafts .detached .nil).valueAt? place = none := by
  rw [valueAt?, map_data_ofDrafts]
  cases place with
  | nil => rfl
  | cons step place => cases step <;> rfl

namespace Configuration

variable {c : Configuration} {m : Markers} {environment : String} {tree : Tree}

/-- An environment compiles in steps: its lineage, what the merged document expands to, and the draft
that this resolves to. -/
theorem compile_eq_ok : c.compile m environment = .ok tree ↔
    ∃ lineage document draft, c.lineage environment = .ok lineage ∧
      (Expanding.ofConfiguration c environment (c.merged lineage)).expanded = .ok document ∧
      Substituting.resolved ⟨environment, m, document⟩ = .ok draft ∧
      .ofDrafts .detached (if draft.label.type = .object then draft.children else .nil) = tree := by
  have drafted : c.compile m environment = .ok tree ↔
      ∃ drafts, c.compileDraft m environment = .ok drafts ∧ .ofDrafts .detached drafts = tree := by
    unfold compile
    cases c.compileDraft m environment <;> simp [Except.map]
  rw [drafted]
  simp only [compileDraft, Outcome.bind_eq_ok, Outcome.pure_eq_ok]
  constructor
  · rintro ⟨drafts, ⟨lineage, hl, document, hd, draft, hr, rfl⟩, same⟩
    exact ⟨lineage, document, draft, hl, hd, hr, same⟩
  · rintro ⟨lineage, document, draft, hl, hd, hr, same⟩
    exact ⟨_, ⟨lineage, hl, document, hd, draft, hr, rfl⟩, same⟩

/-- What compiles resolves, and the tree is what a reading of the expanded document gives. -/
theorem exists_resolved_of_compile (h : c.compile m environment = .ok tree) :
    ∃ lineage document draft value, c.lineage environment = .ok lineage ∧
      (Expanding.ofConfiguration c environment (c.merged lineage)).expanded = .ok document ∧
      Substituting.resolved ⟨environment, m, document⟩ = .ok draft ∧
      Substituting.Reading ⟨environment, m, document⟩ value ∧
      tree = .ofDrafts .detached
        (if document.label.shape = .object then (document.valued value).children else .nil) := by
  obtain ⟨lineage, document, draft, hlineage, hdocument, hdraft, rfl⟩ := compile_eq_ok.1 h
  obtain ⟨value, hr⟩ := Substituting.exists_reading hdraft
  refine ⟨lineage, document, draft, value, hlineage, hdocument, hdraft, hr, ?_⟩
  rw [Substituting.eq_valued_of_reading hdraft hr]
  simp only [Rose.valued, Layered.type_valued_eq_object]

theorem exists_reading_of_compile (h : c.compile m environment = .ok tree) :
    ∃ lineage document value, c.lineage environment = .ok lineage ∧
      (Expanding.ofConfiguration c environment (c.merged lineage)).expanded = .ok document ∧
      Substituting.Reading ⟨environment, m, document⟩ value ∧
      tree = .ofDrafts .detached
        (if document.label.shape = .object then (document.valued value).children else .nil) := by
  obtain ⟨lineage, document, -, value, hl, hd, -, hr, same⟩ := exists_resolved_of_compile h
  exact ⟨lineage, document, value, hl, hd, hr, same⟩

/-- A scalar whose last value has no references keeps that value in the compiled tree. -/
theorem valueAt?_of_plain {lineage : List Handle} {document n : Rose Layered} {place : Place}
    {history : List (Option Scalar)} (hl : c.lineage environment = .ok lineage)
    (hc : c.compile m environment = .ok tree)
    (hd : (Expanding.ofConfiguration c environment (c.merged lineage)).expanded = .ok document)
    (object : document.label.shape = .object) (hn : document.at? place = some n)
    (shape : n.label.shape = .scalar history) (plain : m.Plain history.getLast?.join) :
    tree.valueAt? place = history.getLast?.join := by
  obtain ⟨lineage', document', value, hl', hd', hr, rfl⟩ := exists_reading_of_compile hc
  cases hl.symm.trans hl'
  cases hd.symm.trans hd'
  have last := Substituting.value?_last (e := ⟨environment, m, document⟩) hn shape
  have read := hr _ (.last (Rose.mem_located_of_at? hn) shape)
  rw [if_pos object, Rose.valueAt?_of_scalar value object hn shape, read.eq_value? (last ▸ plain),
    last]

end Configuration

end LayeredConfig
