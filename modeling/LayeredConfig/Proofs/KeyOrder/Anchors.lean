import LayeredConfig.Proofs.KeyOrder.Layers
import Mathlib.Data.List.Flatten
import Mathlib.Data.List.Perm.Subperm

/-!
# The order of keys and the anchors

Where no two nodes of the trees declare one anchor, no two nodes of a merged document have it
(`Configuration.nodup_anchorNames_merged`): putting a layer over another makes no anchor. So the
order in which anchors are listed does not matter, and an anchor has contents that differ in the
order of keys (`Configuration.SameButOrder.content?`).
-/

namespace LayeredConfig

/-! ## How often an anchor occurs -/

/-- The names of the anchors of a forest. -/
def Forest.anchorNames (f : Forest Layered) : List String := f.preorder.flatMap (·.anchors)

/-- The names of the anchors of a document. -/
def Rose.anchorNames (r : Rose Layered) : List String := r.preorder.flatMap (·.anchors)

section Count

variable {a : String}

theorem Forest.count_anchorNames_cons (l : Layered) (cs ss : Forest Layered) :
    (Forest.cons l cs ss).anchorNames.count a =
      (⟨l, cs⟩ : Rose Layered).anchorNames.count a + ss.anchorNames.count a := by
  simp only [anchorNames, Rose.anchorNames, preorder, Rose.preorder, List.flatMap_cons,
    List.flatMap_append, List.count_append]
  omega

theorem Rose.count_anchorNames (r : Rose Layered) :
    r.anchorNames.count a = r.label.anchors.count a + r.children.anchorNames.count a := by
  rw [anchorNames, preorder, List.flatMap_cons, List.count_append]
  rfl

theorem Layered.count_joinAnchors_le (lower upper : List String) :
    (joinAnchors lower upper).count a ≤ lower.count a + upper.count a := by
  unfold joinAnchors
  induction upper generalizing lower with
  | nil => exact Nat.le_refl _
  | cons u upper ih =>
    refine Nat.le_trans (ih _) ?_
    dsimp only
    split <;> simp only [List.count_append, List.count_cons, List.count_nil] <;> omega

theorem Forest.count_updateRoot_le {k : String} {h : Rose Layered → Rose Layered}
    {fresh : Rose Layered} {n : Nat}
    (hh : ∀ r, (h r).anchorNames.count a ≤ r.anchorNames.count a + n)
    (hfresh : fresh.anchorNames.count a ≤ n) (f : Forest Layered) :
    (f.updateRoot k h fresh).anchorNames.count a ≤ f.anchorNames.count a + n := by
  induction f with
  | nil =>
    rw [updateRoot, ofRose, count_anchorNames_cons]
    exact Nat.add_comm _ _ ▸ Nat.add_le_add_left hfresh _
  | cons l cs ss _ ih =>
    rw [updateRoot]
    split
    · rw [count_anchorNames_cons, count_anchorNames_cons, Nat.add_right_comm]
      exact Nat.add_le_add_right (hh ⟨l, cs⟩) _
    · rw [count_anchorNames_cons, count_anchorNames_cons]
      omega

/-- Putting a layer over another makes no anchor. -/
theorem Forest.count_overlay_le (lower upper : Forest Layered) :
    (lower.overlay upper).anchorNames.count a ≤
      lower.anchorNames.count a + upper.anchorNames.count a := by
  induction upper generalizing lower with
  | nil => exact Nat.le_refl _
  | cons u ucs uss ihc ihs =>
    have merge : ∀ l : Rose Layered, (l.overlay ⟨u, ucs⟩).anchorNames.count a ≤
        l.anchorNames.count a + (⟨u, ucs⟩ : Rose Layered).anchorNames.count a := by
      intro l
      have own := Layered.count_joinAnchors_le (a := a) l.label.anchors u.anchors
      have below := ihc l.children
      rw [Rose.count_anchorNames, Rose.count_anchorNames l, Rose.count_anchorNames ⟨u, ucs⟩,
        Rose.overlay, Rose.anchors_under]
      dsimp only
      split <;> omega
    have first := count_updateRoot_le (k := u.key) merge (Nat.le_refl _) lower
    have rest := ihs (lower.updateRoot u.key (·.overlay ⟨u, ucs⟩) ⟨u, ucs⟩)
    rw [count_anchorNames_cons]
    exact Nat.le_trans rest (by omega)

theorem Rose.count_overlay_le (l u : Rose Layered) :
    (l.overlay u).anchorNames.count a ≤ l.anchorNames.count a + u.anchorNames.count a := by
  have own := Layered.count_joinAnchors_le (a := a) l.label.anchors u.label.anchors
  have below := Forest.count_overlay_le (a := a) l.children u.children
  rw [count_anchorNames, count_anchorNames l, count_anchorNames u, overlay, anchors_under]
  dsimp only
  split <;> omega

end Count

/-- The anchors of a single layer are declared in its tree. -/
theorem Forest.anchorNames_layered_sublist (f : Forest NodeData) :
    f.layered.anchorNames.Sublist (f.preorder.filterMap (·.anchor)) := by
  induction f with
  | nil => exact List.Sublist.refl _
  | cons d cs ss ihc ihs =>
    have own : (d :: (cs.preorder ++ ss.preorder)).filterMap (·.anchor) =
        d.anchor.toList ++ (cs.preorder.filterMap (·.anchor) ++
          ss.preorder.filterMap (·.anchor)) := by
      cases hd : d.anchor <;> simp [hd]
    have below : (if d.type.isScalar then Forest.nil else cs.layered).anchorNames.Sublist
        (cs.preorder.filterMap (·.anchor)) := by
      split
      · exact List.nil_sublist _
      · exact ihc
    rw [layered, anchorNames, preorder, preorder, own, List.flatMap_cons, List.flatMap_append]
    exact (List.Sublist.refl _).append (below.append ihs)

theorem Rose.anchorNames_layered_sublist (r : Rose NodeData) :
    r.layered.anchorNames.Sublist (r.preorder.filterMap (·.anchor)) := by
  have same : r.layered.anchorNames = (Forest.ofRose r).layered.anchorNames := by
    rw [Forest.ofRose, Forest.layered, Forest.anchorNames, Forest.preorder, Forest.layered,
      Forest.preorder, List.append_nil]
    rfl
  rw [same, ← preorder_ofRose]
  exact Forest.anchorNames_layered_sublist _

theorem Rose.anchorNames_without_sublist (key : String) (r : Rose Layered) :
    (r.without key).anchorNames.Sublist r.anchorNames := by
  unfold without
  split
  · exact List.Sublist.append (List.Sublist.refl _)
      ((Forest.preorder_filterRoots_sublist _ _).flatMap _)
  · exact List.Sublist.refl _

/-! ## The anchors of a merged document -/

/-- The anchors that the nodes of a tree declare are those of its document. -/
theorem Rose.filterMap_anchor_map (r : Rose Entry) :
    (r.map (·.data)).preorder.filterMap (·.anchor) = r.preorder.filterMap (·.data.anchor) := by
  have labels : (r.map (·.data)).preorder = r.preorder.map (·.data) :=
    congrArg (r.label.data :: ·) (Forest.preorder_map _ _)
  rw [labels, List.filterMap_map]
  rfl

namespace Configuration

/-- Merging layers makes no anchor. -/
theorem count_anchorNames_merged_le (c : Configuration) (hs : List Handle) (a : String) :
    (c.merged hs).anchorNames.count a ≤
      (c.default.entries.filterMap (·.data.anchor)).count a +
        (hs.flatMap fun h => (c.layer h).anchorNames).count a := by
  have folded : ∀ base : Rose Layered, ((hs.map c.layer).foldl .overlay base).anchorNames.count a ≤
      base.anchorNames.count a + (hs.flatMap fun h => (c.layer h).anchorNames).count a := by
    induction hs with
    | nil => exact fun base => Nat.le_refl _
    | cons h hs ih =>
      intro base
      have first := Rose.count_overlay_le (a := a) base (c.layer h)
      rw [List.map_cons, List.foldl_cons, List.flatMap_cons, List.count_append]
      exact Nat.le_trans (ih _) (by omega)
  have default := (Rose.anchorNames_layered_sublist (c.default.top.map (·.data))).count_le a
  rw [Rose.filterMap_anchor_map] at default
  exact Nat.le_trans (folded _) (Nat.add_le_add_right default _)

section Sound

variable {c : Configuration} (sound : c.environments.Sound)

include sound

/-- The layers of a lineage have anchors that the environments declare. -/
theorem anchorNames_layers_subperm {name : String} {hs : List Handle}
    (hl : c.lineage name = .ok hs) :
    (hs.flatMap fun h => (c.layer h).anchorNames).Subperm
      (c.environments.entries.filterMap (·.data.anchor)) := by
  have inside : hs.Subperm (c.environments.branches.map (·.label.handle)) := by
    refine (nodup_lineage (nodup_handles_named sound) hl).subperm fun h hh => ?_
    have := lineage_inside hl hh
    rwa [Forest.rootLabels_eq_map_roots, List.map_map] at this
  obtain ⟨visited, same, inside⟩ := inside
  have branch : ∀ r ∈ c.environments.branches, (c.layer r.label.handle).anchorNames.Sublist
      (r.preorder.filterMap (·.data.anchor)) := by
    intro r hr
    rw [layer_of_root sound hr, ← Rose.filterMap_anchor_map]
    exact (Rose.anchorNames_without_sublist _ _).trans (Rose.anchorNames_layered_sublist _)
  have declared : (c.environments.branches.flatMap fun r => (c.layer r.label.handle).anchorNames).Sublist
      (c.environments.entries.filterMap (·.data.anchor)) := by
    refine (List.Sublist.flatMap_right _ branch).trans ?_
    rw [← List.filterMap_flatMap, Tree.branches, ← Forest.preorder_eq_flatMap_roots]
    exact (List.sublist_cons_self _ _).filterMap _
  refine (same.flatMap_right _).symm.subperm.trans (List.Sublist.subperm ?_)
  exact (inside.flatMap _).trans (by rw [List.flatMap_map]; exact declared)

/-- Where no two nodes declare one anchor, no two nodes of a merged document have it. -/
theorem nodup_anchorNames_merged (distinct : c.declaredAnchors.Nodup) {name : String}
    {hs : List Handle} (hl : c.lineage name = .ok hs) : (c.merged hs).anchorNames.Nodup := by
  rw [List.nodup_iff_count_le_one] at distinct ⊢
  intro a
  have once := distinct a
  rw [declaredAnchors, List.filterMap_append, List.count_append] at once
  have merged := c.count_anchorNames_merged_le hs a
  have layers := (anchorNames_layers_subperm sound hl).count_le a
  omega

end Sound

end Configuration

/-! ## Looking up anchors -/

theorem lookup_of_mem {β : Type} {l : List (String × β)} (distinct : (l.map Prod.fst).Nodup)
    {name : String} {b : β} (h : (name, b) ∈ l) : l.lookup name = some b := by
  obtain ⟨front, back, rfl⟩ := List.append_of_mem h
  rw [List.map_append, List.map_cons, List.nodup_middle, List.nodup_cons, ← List.map_append] at distinct
  rw [List.lookup_append, List.lookup_cons_self, List.lookup_eq_none_iff.2, Option.none_or]
  rintro ⟨other, x⟩ hx
  rw [bne_iff_ne]
  rintro rfl
  exact distinct.1 (List.mem_map.2 ⟨_, List.mem_append_left _ hx, rfl⟩)

/-- Lists with distinct names, in which a name has values that correspond, are looked up alike. -/
theorem lookup_alike {β : Type} {S : β → β → Prop} {l l' : List (String × β)}
    (distinct : (l.map Prod.fst).Nodup) (distinct' : (l'.map Prod.fst).Nodup)
    (there : ∀ name b, (name, b) ∈ l → ∃ b', (name, b') ∈ l' ∧ S b b')
    (back : ∀ name b', (name, b') ∈ l' → ∃ b, (name, b) ∈ l) (name : String) :
    Option.Rel S (l.lookup name) (l'.lookup name) := by
  cases found : l.lookup name with
  | some b =>
    obtain ⟨front, rest, rfl, -⟩ := List.lookup_eq_some_iff.1 found
    obtain ⟨b', hb', same⟩ := there name b (List.mem_append_right _ List.mem_cons_self)
    rw [lookup_of_mem distinct' hb']
    exact .some same
  | none =>
    have absent : l'.lookup name = none := by
      cases found' : l'.lookup name with
      | none => rfl
      | some b' =>
        obtain ⟨front, rest, rfl, -⟩ := List.lookup_eq_some_iff.1 found'
        obtain ⟨b, hb⟩ := back name b' (List.mem_append_right _ List.mem_cons_self)
        rw [lookup_of_mem distinct hb] at found
        cases found
    rw [absent]
    exact .none

theorem lookup_append_alike {β : Type} {S : β → β → Prop} {l l' m m' : List (String × β)}
    {name : String} (first : Option.Rel S (l.lookup name) (l'.lookup name))
    (second : Option.Rel S (m.lookup name) (m'.lookup name)) :
    Option.Rel S ((l ++ m).lookup name) ((l' ++ m').lookup name) := by
  rw [List.lookup_append, List.lookup_append]
  generalize l.lookup name = x, l'.lookup name = x' at first
  cases first with
  | none => exact second
  | some same => exact .some same

/-- Sources of anchors at one place, or with contents that differ in order. -/
inductive AnchorSource.Alike : AnchorSource → AnchorSource → Prop
  | place (place : Place) : Alike (.place place) (.place place)
  | content {r r' : Rose Layered} : r.Reordered Layered.isObject r' → Alike (.content r) (.content r')

/-- The anchors of a document by its labels and their places. -/
theorem Rose.anchorPlaces_eq_sites (r : Rose Layered) :
    r.anchorPlaces = r.sites.flatMap fun x => x.2.anchors.map (·, .place x.1) := by
  rw [anchorPlaces_eq, sites, List.flatMap_map]

theorem Forest.map_snd_sites (parent : Shape) (position : Nat) (f : Forest Layered) :
    (f.sites parent position).map Prod.snd = f.preorder := by
  induction f generalizing parent position with
  | nil => rfl
  | cons l cs ss ihc ihs =>
    rw [sites_cons, List.map_cons, List.map_append, List.map_map, ihs, preorder, ← ihc l.shape 0]
    rfl

theorem Rose.map_fst_anchorPlaces (r : Rose Layered) :
    r.anchorPlaces.map Prod.fst = r.anchorNames := by
  have labels : r.sites.map Prod.snd = r.preorder := by
    rw [sites_eq, List.map_cons, Forest.map_snd_sites]
    rfl
  rw [anchorPlaces_eq_sites, anchorNames, ← labels, List.map_flatMap, List.flatMap_map]
  simp [Function.comp_def]

theorem Rose.Reordered.anchorNames_perm {r r' : Rose Layered}
    (h : r.Reordered Layered.isObject r') : r'.anchorNames.Perm r.anchorNames := by
  unfold Rose.anchorNames Rose.preorder
  rw [h.label]
  exact (h.children.preorder_perm.cons _).flatMap_right _

theorem Rose.Reordered.lookup_anchorPlaces {r r' : Rose Layered}
    (h : r.Reordered Layered.isObject r') (distinct : r.anchorNames.Nodup) (name : String) :
    Option.Rel AnchorSource.Alike (r.anchorPlaces.lookup name) (r'.anchorPlaces.lookup name) := by
  have same : r'.anchorPlaces.Perm r.anchorPlaces := by
    rw [anchorPlaces_eq_sites, anchorPlaces_eq_sites]
    exact h.sites_perm.flatMap_right _
  refine lookup_alike ?_ ?_ (fun name source hs => ⟨source, same.mem_iff.2 hs, ?_⟩)
    (fun name source hs => ⟨source, same.mem_iff.1 hs⟩) name
  · rwa [map_fst_anchorPlaces]
  · rw [map_fst_anchorPlaces]
    exact h.anchorNames_perm.nodup_iff.2 distinct
  · obtain ⟨place, _, -, -, rfl⟩ := mem_anchorPlaces.1 hs
    exact .place place

namespace Tree

variable {t t' : Tree}

theorem map_fst_anchorContents (t : Tree) :
    t.anchorContents.map Prod.fst = t.entries.filterMap (·.data.anchor) := by
  have labels : (t.forest.map (·.data)).subtrees.map Rose.label = t.entries.map (·.data) := by
    rw [Forest.map_label_subtrees, Forest.preorder_map, forest, entries, Rose.preorder_ofRose]
  have names : (t.entries.map (·.data)).filterMap (·.anchor) =
      t.entries.filterMap (·.data.anchor) := by
    rw [List.filterMap_map]
    rfl
  rw [anchorContents, List.map_filterMap, ← names, ← labels, List.filterMap_map]
  congr 1
  funext r
  cases hr : r.label.anchor <;> simp [hr]

namespace SameButOrder

variable (h : t.SameButOrder t')

include h

theorem forest : (t.forest.map (·.data)).Reordered NodeData.isObject false
    (t'.forest.map (·.data)) := by
  have label : t'.top.label.data = t.top.label.data := h.label
  show (Forest.cons t.top.label.data _ .nil).Reordered _ _ (.cons t'.top.label.data _ .nil)
  rw [label]
  exact .cons h.children .nil

theorem anchors_perm : (t'.entries.filterMap (·.data.anchor)).Perm
    (t.entries.filterMap (·.data.anchor)) := by
  unfold Tree.entries
  rw [← Rose.filterMap_anchor_map, ← Rose.filterMap_anchor_map, Rose.preorder, Rose.preorder, h.label]
  exact (h.children.preorder_perm.cons _).filterMap _

theorem lookup_anchorContents (distinct : (t.entries.filterMap (·.data.anchor)).Nodup)
    (name : String) :
    Option.Rel AnchorSource.Alike (t.anchorContents.lookup name)
      (t'.anchorContents.lookup name) := by
  refine lookup_alike ?_ ?_ (fun name source hs => ?_) (fun name source hs => ?_) name
  · rwa [map_fst_anchorContents]
  · rw [map_fst_anchorContents]
    exact h.anchors_perm.nodup_iff.2 distinct
  · obtain ⟨n, hn, anchor, rfl⟩ := mem_anchorContents.1 hs
    obtain ⟨n', hn', same⟩ := h.forest.symm.exists_mem_subtrees hn
    exact ⟨_, mem_anchorContents.2 ⟨n', hn', by rw [← same.label, anchor], rfl⟩,
      .content same.symm.layered⟩
  · obtain ⟨n', hn', anchor, rfl⟩ := mem_anchorContents.1 hs
    obtain ⟨n, hn, same⟩ := h.forest.exists_mem_subtrees hn'
    exact ⟨_, mem_anchorContents.2 ⟨n, hn, by rw [← same.label, anchor], rfl⟩⟩

end SameButOrder

end Tree

/-! ## The contents of anchors -/

namespace Expanding

/-- Documents that differ in order, in which an anchor has contents that do. -/
structure SameButOrder (e e' : Expanding) : Prop where
  document : e.document.Reordered Layered.isObject e'.document
  content? : ∀ name, Option.Rel (Rose.Reordered Layered.isObject) (e.content? name) (e'.content? name)
  names : e'.names.Perm e.names

end Expanding

/-- Configurations that differ in order have anchors with contents that differ in order, if no two
nodes of the trees and no two of the merged document share an anchor. -/
theorem Configuration.SameButOrder.expanding {c c' : Configuration} (h : c.SameButOrder c')
    (distinct : c.declaredAnchors.Nodup) {document document' : Rose Layered}
    (keyed : document.Everywhere Rose.Keyed) (once : document.anchorNames.Nodup)
    (documents : document.Reordered Layered.isObject document') (environment : String) :
    (Expanding.ofConfiguration c environment document).SameButOrder
      (Expanding.ofConfiguration c' environment document') := by
  rw [declaredAnchors, List.filterMap_append, List.nodup_append] at distinct
  have found : ∀ name, Option.Rel AnchorSource.Alike
      ((Expanding.ofConfiguration c environment document).anchors.lookup name)
      ((Expanding.ofConfiguration c' environment document').anchors.lookup name) := fun name =>
    lookup_append_alike (lookup_append_alike (documents.lookup_anchorPlaces once name)
      (h.default.lookup_anchorContents distinct.1 name))
      (h.environments.lookup_anchorContents distinct.2.1 name)
  refine ⟨documents, fun name => ?_, ?_⟩
  · have found := found name
    unfold Expanding.content?
    generalize (Expanding.ofConfiguration c environment document).anchors.lookup name = x,
      (Expanding.ofConfiguration c' environment document').anchors.lookup name = x' at found
    cases found with
    | none => exact .none
    | some same =>
      cases same with
      | place place => exact documents.at? keyed place
      | content contents => exact .some contents
  · refine (List.perm_ext_iff_of_nodup (nodup_eraseDups _) (nodup_eraseDups _)).2 fun name => ?_
    have named : ∀ e : Expanding, name ∈ e.names ↔ (e.anchors.lookup name).isSome := by
      intro e
      rw [Expanding.mem_names, List.lookup_isSome_iff]
      constructor
      · rintro ⟨source, hs⟩
        exact ⟨_, hs, beq_self_eq_true name⟩
      · rintro ⟨⟨other, source⟩, hs, same⟩
        exact ⟨source, beq_iff_eq.1 same ▸ hs⟩
    change name ∈ Expanding.names _ ↔ name ∈ Expanding.names _
    rw [named, named]
    have found := found name
    generalize (Expanding.ofConfiguration c environment document).anchors.lookup name = x,
      (Expanding.ofConfiguration c' environment document').anchors.lookup name = x' at found
    cases found <;> rfl

end LayeredConfig
