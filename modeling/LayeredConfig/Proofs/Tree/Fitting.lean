import LayeredConfig.Alignment
import LayeredConfig.Proofs.Tree.Keys
import LayeredConfig.Proofs.Tree.Overrides

/-!
# Orderly trees

A tree fits `P` when the anchors and aliases of every node satisfy `P` and no scalar has children.
Data that change keep it if they keep their names and their type (`Fits.map`), nodes taken away keep
it (`Fits.keepChildren`), and new nodes keep it below a container (`Fits.graftAll`). A node that
becomes a scalar keeps it if it loses its children (`Fits.write`).

An orderly tree fits `P`, its handles name one node each, and its root is an object under a given key
(`Orderly`). Every change that a session makes of a tree keeps it orderly.
-/

namespace LayeredConfig

variable {P : String → Prop}

/-- The anchor and the aliases of a node satisfy `P`. -/
def NodeData.Named (P : String → Prop) (d : NodeData) : Prop := ∀ a ∈ d.anchor.toList ++ d.aliases, P a

/-- A node with names that satisfy `P` and, if it is a scalar, without children. -/
structure Rose.Fits (P : String → Prop) (r : Rose NodeData) : Prop where
  names : r.label.Named P
  leaf : r.label.type.isScalar → r.children = .nil

/-- The same of an entry and its children. -/
def Entry.Fits (P : String → Prop) (e : Entry) (children : List Entry) : Prop :=
  e.data.Named P ∧ (e.data.type.isScalar → children = [])

namespace Tree

variable {t : Tree} {h parent : Handle}

/-- Every node has names that satisfy `P`, and no scalar has children. -/
def Fits (P : String → Prop) (t : Tree) : Prop := t.forest.Everywhere (Shallow (Entry.Fits P))

theorem shallow_fits_iff {r : Rose Entry} : Shallow (Entry.Fits P) r ↔ (r.map (·.data)).Fits P := by
  have below : (r.map (·.data)).children = .nil ↔ r.children.rootLabels = [] := Rose.children_map_eq_nil
  exact ⟨fun h => ⟨h.1, fun scalar => below.2 (h.2 scalar)⟩, fun h => ⟨h.names, fun scalar => below.1 (h.leaf scalar)⟩⟩

theorem fits_iff : t.Fits P ↔ (t.top.map (·.data)).Everywhere (Rose.Fits P) := by
  rw [Rose.everywhere_map, Fits, Rose.everywhere_iff_ofRose]
  exact ⟨fun h => h.mono fun _ hr => shallow_fits_iff.1 hr, fun h => h.mono fun _ hr => shallow_fits_iff.2 hr⟩

/-! ## Other data -/

theorem Fits.map (ht : t.Fits P) {g : Entry → Entry} (names : ∀ e, e.data.Named P → (g e).data.Named P)
    (type : ∀ e, (g e).data.type = e.data.type) : ({ t with top := t.top.map g } : Tree).Fits P := by
  refine everywhere_map_iff.2 (ht.mono fun r hr => ⟨names _ hr.1, fun scalar => ?_⟩)
  rw [hr.2 (type r.label ▸ scalar)]
  rfl

/-- Data written over a node, which has no children if they are those of a scalar. -/
theorem Fits.write (ht : t.Fits P) {d : NodeData} (names : d.Named P)
    (bottom : d.type.isScalar → t.forest.Everywhere (Shallow fun e es => e.handle = h → es = [])) :
    (t.modify h fun _ => d).Fits P := by
  refine everywhere_modify_iff.2 fun r hr => ?_
  have fits := ht r hr
  show _ ∧ _
  by_cases same : r.label.handle = h
  · rw [written_self same]
    refine ⟨names, fun scalar => ?_⟩
    rw [bottom scalar r hr same]
    rfl
  · rw [written_of_ne same]
    refine ⟨fits.1, fun scalar => ?_⟩
    rw [fits.2 scalar]
    rfl

/-! ## Nodes taken away -/

theorem Fits.everywhere_clear (ht : t.Fits P) (h : Handle) :
    (t.clear h).forest.Everywhere (Shallow fun e es => Entry.Fits P e es ∧ (e.handle = h → es = [])) :=
  Tree.everywhere_clear ht (fun _ _ fits => ⟨fits.1, fun _ => rfl⟩) h

theorem Fits.clear (ht : t.Fits P) (h : Handle) : (t.clear h).Fits P :=
  (ht.everywhere_clear h).mono fun _ hr => hr.1

theorem Fits.keepChildren (ht : t.Fits P) (h : Handle) (keep : Entry → Bool) : (t.keepChildren h keep).Fits P := by
  refine everywhere_keepChildren ht (fun _ _ _ fits => fits) fun r hr _ => ⟨(ht r hr).1, fun scalar => ?_⟩
  rw [(ht r hr).2 scalar]
  split <;> rfl

/-! ## New nodes -/

/-- Drafts below a container. -/
theorem Fits.graftAll (ht : t.Fits P) {drafts : Forest NodeData} (hd : drafts.Everywhere (Rose.Fits P))
    (container : ∀ d, t.data? parent = some d → d.type.isScalar = false) (sound : t.Sound) :
    (t.graftAll parent drafts).1.Fits P := by
  refine everywhere_graftAll ht ?_ fun r hr same => ⟨(ht r hr).1, fun scalar => ?_⟩
  · rw [← Forest.map_data_number drafts t.next, Forest.everywhere_map] at hd
    exact hd.mono fun r hr => shallow_fits_iff.2 hr
  · have known := sound.data?_of_mem (Forest.mem_preorder_of_mem_subtrees hr List.mem_cons_self)
    rw [same] at known
    rw [container _ known] at scalar
    cases scalar

/-! ## Orderly trees -/

/-- The handles name one node each, the root is an object under `key`, and the nodes fit. -/
structure Orderly (P : String → Prop) (key : String) (t : Tree) : Prop where
  sound : t.Sound
  root : t.top.label.data.key = key ∧ t.top.label.data.type = .object
  fits : t.Fits P

namespace Orderly

variable {key : String}

/-- Data that keep their names and their type, and the root its key. -/
theorem map (ht : t.Orderly P key) {g : Entry → Entry} (handle : ∀ e, (g e).handle = e.handle)
    (names : ∀ e, e.data.Named P → (g e).data.Named P) (type : ∀ e, (g e).data.type = e.data.type)
    (root : (g t.top.label).data.key = t.top.label.data.key) :
    ({ t with top := t.top.map g } : Tree).Orderly P key where
  sound := ht.sound.map handle
  root := ⟨root.trans ht.root.1, (type _).trans ht.root.2⟩
  fits := ht.fits.map names type

theorem modifyAll (ht : t.Orderly P key) {f : NodeData → NodeData} (names : ∀ d, d.Named P → (f d).Named P)
    (same : ∀ d, (f d).key = d.key ∧ (f d).type = d.type) : (t.modifyAll f).Orderly P key :=
  ht.map (fun _ => rfl) (fun e => names e.data) (fun e => (same e.data).2) (same _).1

/-- Another value. -/
theorem revalue (ht : t.Orderly P key) (h : Handle) (value : Option Scalar) :
    (t.modify h fun d => { d with value }).Orderly P key := by
  refine ht.map (fun e => ?_) (fun e named => ?_) (fun e => ?_) ?_ <;> split
  all_goals first | rfl | exact named

theorem renameReferences (ht : t.Orderly P key) (h : Handle) (m : Markers) (old new : String) :
    (t.renameReferences h m old new).1.Orderly P key := by
  refine List.foldlRecOn (motive := fun r : Tree × Nat => r.1.Orderly P key) _ _ ht fun r hr node _ => ?_
  dsimp only
  split
  · exact hr.revalue _ _
  · exact hr

/-- Overrides get another key. The root is none. -/
theorem renameOverrides (ht : t.Orderly P key) (path : List String) (new : String) :
    (t.alignOverrides path fun t h => t.modify h fun d => { d with key := new }).1.Orderly P key := by
  unfold Tree.alignOverrides
  dsimp only
  rw [Tree.foldl_modify (f := fun d => { d with key := new }) (Or.inr fun _ => rfl)]
  refine ht.map (fun e => ?_) (fun e named => ?_) (fun e => ?_) ?_
  · split <;> rfl
  · split <;> exact named
  · split <;> rfl
  · split
    · rename_i override
      obtain ⟨_, _, _, y, _, above⟩ := ht.sound.parent_of_override override
      rw [show t.top.label.handle = t.root from rfl, t.parent?_root] at above
      cases above
    · rfl

theorem clear (ht : t.Orderly P key) (h : Handle) : (t.clear h).Orderly P key :=
  ⟨ht.sound.clear h, ht.root, ht.fits.clear h⟩

theorem remove (ht : t.Orderly P key) (h : Handle) : (t.remove h).1.Orderly P key := by
  refine ⟨ht.sound.remove h, ?_, ?_⟩ <;> unfold Tree.remove <;> split
  · exact ht.root
  · exact ht.root
  · exact ht.fits.keepChildren _ _
  · exact ht.fits

theorem removeOverrides (ht : t.Orderly P key) (path : List String) : (t.removeOverrides path).1.Orderly P key :=
  List.foldlRecOn (motive := (Orderly P key ·)) _ _ ht fun _ ht h _ => ht.remove h

theorem graftAll (ht : t.Orderly P key) {drafts : Forest NodeData} (hd : drafts.Everywhere (Rose.Fits P))
    (container : ∀ d, t.data? parent = some d → d.type.isScalar = false) :
    (t.graftAll parent drafts).1.Orderly P key := by
  refine ⟨ht.sound.graftAll parent drafts, ?_, ht.fits.graftAll hd container ht.sound⟩
  unfold Tree.graftAll
  split <;> exact ht.root

/-- Data written over a node. The root keeps its key and its type, and a scalar loses its children. -/
theorem write (ht : t.Orderly P key) {d : NodeData} (names : d.Named P)
    (root : t.root = h → d.key = key ∧ d.type = .object) :
    (if d.type.isScalar then (t.modify h fun _ => d).clear h else t.modify h fun _ => d).Orderly P key := by
  have top : (t.modify h fun _ => d).top.label.data.key = key ∧
      (t.modify h fun _ => d).top.label.data.type = .object := by
    show (if t.root == h then ({ t.top.label with data := d } : Entry) else t.top.label).data.key = key ∧
      (if t.root == h then ({ t.top.label with data := d } : Entry) else t.top.label).data.type = .object
    split
    · rename_i same
      exact root (beq_iff_eq.1 same)
    · exact ht.root
  split
  · refine ⟨(ht.sound.modify h _).clear h, top, ?_⟩
    rw [← Tree.clear_modify]
    exact (ht.fits.clear h).write names fun _ => (ht.fits.everywhere_clear h).mono fun _ hr => hr.2
  · rename_i container
    exact ⟨ht.sound.modify h _, top, ht.fits.write names fun scalar => absurd scalar container⟩

end Orderly

end Tree

/-- Both trees are orderly, each under its own key. -/
structure Configuration.Orderly (P : String → Prop) (c : Configuration) : Prop where
  default : c.default.Orderly P defaultKey
  environments : c.environments.Orderly P environmentsKey

theorem Configuration.orderly_empty : Configuration.empty.Orderly P := by
  have empty (kind : TreeKind) : (Tree.empty kind).Orderly P (Tree.rootKeyOf kind) :=
    ⟨Tree.sound_empty kind, ⟨rfl, rfl⟩, Forest.everywhere_cons.2
      ⟨⟨nofun, fun _ => rfl⟩, Forest.everywhere_nil, Forest.everywhere_nil⟩⟩
  exact ⟨empty .default, empty .environments⟩

end LayeredConfig
