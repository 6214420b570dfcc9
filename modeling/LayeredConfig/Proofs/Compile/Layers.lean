import LayeredConfig.Compile
import LayeredConfig.Proofs.Compile.Places

/-!
# Merged layers

Putting a layer over another puts each of its entries, itself put over the lower entry of that key,
into the lower entries (`Forest.overlay_cons`). So whatever holds of every node of two layers and
is kept node by node holds of every node of the merged document (`Configuration.everywhere_merged`):
keys stay distinct, scalars keep a value, and no layer adds an anchor that no tree declares.
-/

namespace LayeredConfig

/-! ## One layer over another -/

namespace Rose

/-- The tree put over a lower one, if there is one. -/
def onto (upper : Rose Layered) (lower : Option (Rose Layered)) : Rose Layered :=
  match lower with
  | some l => l.overlay upper
  | none => upper

theorem under_key (lower upper : Layered) : (lower.under upper).key = lower.key := by
  unfold Layered.under
  split <;> rfl

theorem onto_key {upper : Rose Layered} {lower : Option (Rose Layered)}
    (h : ∀ l, lower = some l → l.label.key = upper.label.key) :
    (upper.onto lower).label.key = upper.label.key := by
  cases lower with
  | none => rfl
  | some l => exact (under_key _ _).trans (h l rfl)

end Rose

namespace Forest

theorem updateRoot_eq_putRoot {k : String} {h : Rose Layered → Rose Layered}
    {fresh : Rose Layered} (hh : ∀ r, r.label.key = k → (h r).label.key = k)
    (hfresh : fresh.label.key = k) (f : Forest Layered) :
    f.updateRoot k h fresh =
      f.putRoot Layered.key (((f.findRoot? (Layered.key · == k)).map h).getD fresh) := by
  induction f with
  | nil => rfl
  | cons l cs ss _ ih =>
    rw [updateRoot, findRoot?_cons]
    by_cases same : l.key = k
    · rw [if_pos same, if_pos same, putRoot]
      exact (if_pos (same.trans (hh ⟨l, cs⟩ same).symm)).symm
    · rw [if_neg same, if_neg same, ih, putRoot, if_neg]
      cases hr : ss.findRoot? (Layered.key · == k) with
      | none => exact fun e => same (e.trans hfresh)
      | some r => exact fun e => same (e.trans (hh r (findRoot?_key hr)))

/-- The first entry of a layer is put over the lower entry of its key; the others follow. -/
theorem overlay_cons (lower : Forest Layered) (u : Layered) (ucs uss : Forest Layered) :
    lower.overlay (.cons u ucs uss) =
      (lower.putRoot Layered.key
        ((⟨u, ucs⟩ : Rose Layered).onto (lower.findRoot? (Layered.key · == u.key)))).overlay uss := by
  rw [overlay, updateRoot_eq_putRoot (k := u.key) (fun r hr => (Rose.under_key _ _).trans hr) rfl]
  cases lower.findRoot? (Layered.key · == u.key) <;> rfl

theorem key_onto_findRoot? (lower : Forest Layered) (u : Rose Layered) :
    (u.onto (lower.findRoot? (Layered.key · == u.label.key))).label.key = u.label.key :=
  Rose.onto_key fun _ hl => findRoot?_key hl

theorem nodup_rootKeys_overlay {lower : Forest Layered}
    (h : (lower.rootKeys Layered.key).Nodup) (upper : Forest Layered) :
    ((lower.overlay upper).rootKeys Layered.key).Nodup := by
  induction upper generalizing lower with
  | nil => exact h
  | cons u ucs uss _ ih =>
    rw [overlay_cons]
    exact ih (nodup_rootKeys_putRoot h _)

theorem mem_rootKeys_overlay {k : String} {lower upper : Forest Layered} :
    k ∈ (lower.overlay upper).rootKeys Layered.key ↔
      k ∈ lower.rootKeys Layered.key ∨ k ∈ upper.rootKeys Layered.key := by
  induction upper generalizing lower with
  | nil => exact (or_iff_left List.not_mem_nil).symm
  | cons u ucs uss _ ih =>
    rw [overlay_cons, ih, mem_rootKeys_putRoot, key_onto_findRoot? lower ⟨u, ucs⟩, rootKeys_cons,
      List.mem_cons, or_assoc]

theorem findRoot?_overlay_of_not_mem {k : String} {lower upper : Forest Layered}
    (h : k ∉ upper.rootKeys Layered.key) :
    (lower.overlay upper).findRoot? (Layered.key · == k) =
      lower.findRoot? (Layered.key · == k) := by
  induction upper generalizing lower with
  | nil => rfl
  | cons u ucs uss _ ih =>
    rw [rootKeys_cons, List.mem_cons, not_or] at h
    rw [overlay_cons, ih h.2, findRoot?_putRoot, key_onto_findRoot? lower ⟨u, ucs⟩,
      if_neg (Ne.symm h.1)]

/-- The only upper entry of a key is put over the first lower one. -/
theorem findRoot?_overlay {k : String} {lower upper : Forest Layered} {u : Rose Layered}
    (h : upper.roots.filter (·.label.key == k) = [u]) :
    (lower.overlay upper).findRoot? (Layered.key · == k) =
      some (u.onto (lower.findRoot? (Layered.key · == k))) := by
  induction upper generalizing lower with
  | nil => cases h
  | cons a cs ss _ ih =>
    have put := key_onto_findRoot? lower ⟨a, cs⟩
    rw [roots, List.filter_cons] at h
    rw [overlay_cons]
    by_cases same : a.key = k
    · rw [if_pos (beq_iff_eq.2 same), List.cons.injEq] at h
      obtain ⟨rfl, none⟩ := h
      have absent : k ∉ ss.rootKeys Layered.key := by
        intro named
        obtain ⟨y, hy, hname⟩ := mem_rootKeys.1 named
        exact List.filter_eq_nil_iff.1 none y hy (beq_iff_eq.2 hname)
      rw [findRoot?_overlay_of_not_mem absent, findRoot?_putRoot, put, if_pos same, same]
    · rw [if_neg fun h => same (beq_iff_eq.1 h)] at h
      rw [ih h, findRoot?_putRoot, put, if_neg same]

/-- Where upper keys are distinct, every key names the upper entry put over the lower one. -/
theorem findRoot?_overlay_of_nodup {upper : Forest Layered}
    (hu : (upper.rootKeys Layered.key).Nodup) (lower : Forest Layered) (k : String) :
    (lower.overlay upper).findRoot? (Layered.key · == k) =
      match upper.findRoot? (Layered.key · == k) with
      | some u => some (u.onto (lower.findRoot? (Layered.key · == k)))
      | none => lower.findRoot? (Layered.key · == k) := by
  induction upper generalizing lower with
  | nil => rfl
  | cons a cs ss _ ih =>
    obtain ⟨new, hss⟩ := List.nodup_cons.1 hu
    have put := key_onto_findRoot? lower ⟨a, cs⟩
    rw [overlay_cons, ih hss, findRoot?_putRoot, put, findRoot?_cons]
    by_cases same : a.key = k
    · rw [if_pos same, if_pos same, ← same, findRoot?_eq_none_iff.2 new]
    · rw [if_neg same, if_neg same]

end Forest

/-- What one node put over another keeps, every node of merged trees has. -/
theorem Forest.everywhere_overlay {P : Rose Layered → Prop}
    (hP : ∀ l u, P l → P u → P (l.overlay u)) {lower upper : Forest Layered}
    (hl : lower.Everywhere P) (hu : upper.Everywhere P) : (lower.overlay upper).Everywhere P := by
  induction upper generalizing lower with
  | nil => exact hl
  | cons u ucs uss ihc ihs =>
    obtain ⟨hu, hcs, hss⟩ := everywhere_cons.1 hu
    rw [overlay_cons]
    refine ihs (everywhere_iff_roots.2 fun r hr => ?_) hss
    rcases mem_roots_putRoot hr with hr | rfl
    · exact everywhere_iff_roots.1 hl r hr
    · cases found : lower.findRoot? (Layered.key · == u.key) with
      | none => exact ⟨hu, hcs⟩
      | some l =>
        have hl := everywhere_iff_roots.1 hl l (findRoot?_mem found)
        refine ⟨hP l ⟨u, ucs⟩ hl.1 hu, ?_⟩
        simp only [Rose.onto, Rose.overlay]
        split
        · exact ihc hl.2 hcs
        · exact hcs

theorem Rose.everywhere_overlay {P : Rose Layered → Prop}
    (hP : ∀ l u, P l → P u → P (l.overlay u)) {lower upper : Rose Layered}
    (hl : lower.Everywhere P) (hu : upper.Everywhere P) : (lower.overlay upper).Everywhere P := by
  refine ⟨hP lower upper hl.1 hu.1, ?_⟩
  unfold Rose.overlay
  split
  · exact Forest.everywhere_overlay hP hl.2 hu.2
  · exact hu.2

/-! ## What layers keep -/

namespace Rose

theorem shape_under (l u : Layered) :
    (l.under u).shape =
      match l.shape, u.shape with
      | .scalar history, .scalar values => .scalar (history ++ values)
      | _, shape => shape := by
  unfold Layered.under
  cases hl : l.shape <;> cases hu : u.shape <;> simp

theorem shape_overlay_eq_object {l u : Rose Layered} :
    (l.overlay u).label.shape = .object ↔ u.label.shape = .object := by
  rw [overlay, shape_under]
  split
  · rename_i hu
    simp [hu]
  · rfl

theorem Keyed.overlay {l u : Rose Layered} (hl : l.Keyed) (hu : u.Keyed) :
    (l.overlay u).Keyed := by
  intro shape
  have hshape : u.label.shape = .object := by
    simp only [Rose.overlay, shape_under] at shape
    split at shape
    · cases shape
    · exact shape
  unfold Rose.overlay
  split
  · rename_i both
    exact Forest.nodup_rootKeys_overlay (hl both.1) _
  · exact hu hshape

theorem ScalarLeaf.overlay {l u : Rose Layered} (hu : u.ScalarLeaf) :
    (l.overlay u).ScalarLeaf := by
  intro history shape
  simp only [Rose.overlay, shape_under] at shape ⊢
  split at shape
  · rename_i lower upper hshape ushape
    cases shape
    rw [if_neg (by simp [ushape])]
    exact ⟨by simp [(hu upper ushape).1], (hu upper ushape).2⟩
  · rw [if_neg (by simp [shape])]
    exact hu history shape

theorem mem_joinAnchors {a : String} {lower upper : List String} :
    a ∈ Layered.joinAnchors lower upper ↔ a ∈ lower ∨ a ∈ upper := by
  unfold Layered.joinAnchors
  induction upper generalizing lower with
  | nil => simp
  | cons u upper ih =>
    rw [List.foldl_cons, ih]
    by_cases hu : u ∈ lower
    · simp only [List.contains_iff_mem.2 hu, if_true, List.mem_cons]
      constructor
      · exact Or.imp_right Or.inr
      · rintro (h | rfl | h)
        exacts [Or.inl h, Or.inl hu, Or.inr h]
    · simp [hu, or_assoc]

theorem anchors_under (l u : Layered) :
    (l.under u).anchors = Layered.joinAnchors l.anchors u.anchors := by
  unfold Layered.under
  split <;> rfl

end Rose

/-! ## Single layers -/

theorem Forest.everywhere_layered {P : Rose NodeData → Prop} {Q : Rose Layered → Prop}
    (h : ∀ n, P n → Q n.layered) {f : Forest NodeData} (hf : f.Everywhere P) :
    f.layered.Everywhere Q := by
  induction f with
  | nil => exact everywhere_nil
  | cons d cs ss ihc ihs =>
    obtain ⟨hd, hcs, hss⟩ := everywhere_cons.1 hf
    rw [layered]
    refine everywhere_cons.2 ⟨h ⟨d, cs⟩ hd, ?_, ihs hss⟩
    split
    · exact everywhere_nil
    · exact ihc hcs

theorem Rose.everywhere_layered {P : Rose NodeData → Prop} {Q : Rose Layered → Prop}
    (h : ∀ n, P n → Q n.layered) {r : Rose NodeData} (hr : r.Everywhere P) :
    r.layered.Everywhere Q := by
  refine ⟨h r hr.1, ?_⟩
  unfold Rose.layered
  split
  · exact Forest.everywhere_nil
  · exact Forest.everywhere_layered h hr.2

theorem Forest.rootKeys_layered (f : Forest NodeData) :
    f.layered.rootKeys Layered.key = f.rootKeys NodeData.key := by
  induction f with
  | nil => rfl
  | cons d cs ss _ ih => rw [layered, rootKeys_cons, ih, rootKeys_cons]; rfl

theorem Layered.shape_ofData {d : NodeData} (object : d.type = .object) :
    (Layered.ofData d).shape = .object := by
  rw [ofData, object]

theorem Rose.layered_of_object {r : Rose NodeData} (object : r.label.type = .object) :
    r.layered = ⟨.ofData r.label, r.children.layered⟩ := by
  rw [layered, object]
  rfl

theorem Rose.scalarLeaf_layered (r : Rose NodeData) : r.layered.ScalarLeaf := by
  intro history shape
  unfold Rose.layered Layered.ofData at shape
  cases htype : r.label.type <;> simp only [htype] at shape <;> cases shape <;>
    exact ⟨List.cons_ne_nil _ _, by simp [Rose.layered, htype, ValueType.isScalar]⟩

theorem Rose.keyed_layered {r : Rose NodeData} (h : (r.children.rootKeys NodeData.key).Nodup) :
    r.layered.Keyed := by
  intro _
  unfold Rose.layered
  split
  · exact List.nodup_nil
  · rw [Forest.rootKeys_layered]
    exact h

theorem Rose.children_without (k : String) (r : Rose Layered) :
    (r.without k).children =
      if r.label.shape = .object then r.children.filterRoots (·.key != k) else r.children := by
  unfold without
  split <;> rfl

theorem Rose.label_without (k : String) (r : Rose Layered) : (r.without k).label = r.label := by
  unfold without
  split <;> rfl

/-- Without the entries of a key, an object that has no others has none. -/
theorem Rose.without_layered {d : Draft} {k : String} (object : d.label.type = .object)
    (others : ∀ r ∈ d.children.roots, r.label.key = k) :
    d.layered.without k = ⟨.ofData d.label, .nil⟩ := by
  rw [layered_of_object object, without, if_pos (Layered.shape_ofData object)]
  refine congrArg (Rose.mk _) (Forest.filterRoots_eq_nil fun other hother => ?_)
  rw [Forest.rootKeys_layered] at hother
  obtain ⟨r, hr, rfl⟩ := Forest.mem_rootKeys.1 hother
  exact others r hr

/-- An empty object without markers changes nothing of an object that it is put over. -/
theorem Rose.overlay_empty {l : Rose Layered} {u : Layered} (lower : l.label.shape = .object)
    (upper : u.shape = .object) (anchors : u.anchors = []) (aliases : u.aliases = []) :
    l.overlay ⟨u, .nil⟩ = l := by
  obtain ⟨⟨key, names, others, shape⟩, children⟩ := l
  obtain rfl : shape = .object := lower
  rw [overlay, if_pos ⟨rfl, upper⟩, Layered.under, upper, anchors, aliases]
  rfl

/-! ## The merged document -/

/-- Layering keeps `Q`: it holds of every node of a single layer whose tree satisfies `P`, and
nothing that merging does to a node ends it. -/
structure KeptByLayers (P : Rose NodeData → Prop) (Q : Rose Layered → Prop) : Prop where
  single : ∀ n, P n → Q n.layered
  missing : Q ⟨.ofData { type := .string }, .nil⟩
  without : ∀ n, Q n → Q (n.without inheritsKey)
  overlay : ∀ l u, Q l → Q u → Q (l.overlay u)

theorem Rose.scalarLeaf_kept : KeptByLayers (fun _ => True) ScalarLeaf where
  single n _ := n.scalarLeaf_layered
  missing history shape := by
    cases shape
    exact ⟨List.cons_ne_nil _ _, rfl⟩
  without n hn history shape := by
    rw [label_without] at shape
    rw [children_without, if_neg (by simp [shape])]
    exact hn history shape
  overlay _ _ _ hu := hu.overlay

theorem Rose.keyed_kept :
    KeptByLayers (fun n => (n.children.rootKeys NodeData.key).Nodup) Keyed where
  single _ := keyed_layered
  missing shape := by cases shape
  without n hn shape := by
    rw [label_without] at shape
    rw [children_without, if_pos shape]
    exact Forest.nodup_rootKeys_filterRoots (hn shape) _
  overlay _ _ hl hu := hl.overlay hu

theorem Rose.anchors_kept (names : List String) :
    KeptByLayers (fun n => ∀ a ∈ n.label.anchor, a ∈ names)
      (fun n => ∀ a ∈ n.label.anchors, a ∈ names) where
  single n hn a ha := hn a (Option.mem_toList.1 ha)
  missing a ha := by cases ha
  without n hn := by
    rw [label_without]
    exact hn
  overlay l u hl hu a ha := by
    rw [overlay, anchors_under, mem_joinAnchors] at ha
    exact ha.elim (hl a) (hu a)

theorem Rose.aliases_kept (S : String → Prop) :
    KeptByLayers (fun n => ∀ a ∈ n.label.aliases, S a) (fun n => ∀ a ∈ n.label.aliases, S a) where
  single _ hn := hn
  missing a ha := by cases ha
  without n hn := by
    rw [label_without]
    exact hn
  overlay l u hl hu := by
    intro a ha
    simp only [overlay, Layered.under] at ha
    split at ha
    · split at ha
      exacts [hl a ha, hu a ha]
    · exact hu a ha
    · exact hu a ha

/-- What holds of every node of a tree holds of every node of a subtree taken out of it. -/
theorem Tree.everywhere_extract {P : Rose NodeData → Prop} {t : Tree}
    (ht : (t.top.map (·.data)).Everywhere P) {h : Handle} {r : Rose NodeData}
    (hr : t.extract h = some r) : r.Everywhere P := by
  obtain ⟨n, found, rfl⟩ := Option.map_eq_some_iff.1 hr
  rw [Rose.everywhere_map] at ht ⊢
  have inside : t.forest.Everywhere fun n => P (n.map (·.data)) :=
    Forest.everywhere_cons.2 ⟨ht.1, ht.2, Forest.everywhere_nil⟩
  exact inside.of_mem_subtrees (Forest.find?_mem_subtrees found)

/-- No two children of a node share a key. -/
def Tree.UniqueKeys (t : Tree) : Prop :=
  t.top.Everywhere fun n => (n.children.rootKeys (·.data.key)).Nodup

instance (t : Tree) : Decidable t.UniqueKeys :=
  inferInstanceAs (Decidable (t.top.Everywhere fun n => (n.children.rootKeys (·.data.key)).Nodup))

/-- Children have their keys from their data. -/
theorem Rose.rootKeys_map_data (n : Rose Entry) :
    (n.map (·.data)).children.rootKeys NodeData.key = n.children.rootKeys (·.data.key) := by
  rw [Forest.rootKeys, Rose.map, Forest.roots_map, List.map_map]
  rfl

theorem Tree.uniqueKeys_iff_data {t : Tree} : t.UniqueKeys ↔
    (t.top.map (·.data)).Everywhere fun n => (n.children.rootKeys NodeData.key).Nodup := by
  rw [Rose.everywhere_map]
  simp only [Rose.rootKeys_map_data]
  rfl

theorem Tree.UniqueKeys.data {t : Tree} (ht : t.UniqueKeys) :
    (t.top.map (·.data)).Everywhere fun n => (n.children.rootKeys NodeData.key).Nodup :=
  uniqueKeys_iff_data.1 ht

namespace Configuration

/-- In both trees no two children of a node share a key. -/
def UniqueKeys (c : Configuration) : Prop := c.default.UniqueKeys ∧ c.environments.UniqueKeys

instance (c : Configuration) : Decidable c.UniqueKeys :=
  inferInstanceAs (Decidable (c.default.UniqueKeys ∧ c.environments.UniqueKeys))

/-- The names of the anchors of both trees. -/
def declaredAnchors (c : Configuration) : List String :=
  (c.default.entries ++ c.environments.entries).filterMap (·.data.anchor)

/-- Every node of both trees satisfies `P`. -/
def Everywhere (P : Rose NodeData → Prop) (c : Configuration) : Prop :=
  (c.default.top.map (·.data)).Everywhere P ∧ (c.environments.top.map (·.data)).Everywhere P

instance {P : Rose NodeData → Prop} [DecidablePred P] (c : Configuration) : Decidable (c.Everywhere P) :=
  inferInstanceAs (Decidable (_ ∧ _))

theorem UniqueKeys.everywhere {c : Configuration} (hc : c.UniqueKeys) :
    c.Everywhere fun n => (n.children.rootKeys NodeData.key).Nodup := ⟨hc.1.data, hc.2.data⟩

theorem everywhere_true (c : Configuration) : c.Everywhere fun _ => True :=
  ⟨⟨trivial, fun _ _ => trivial⟩, ⟨trivial, fun _ _ => trivial⟩⟩

theorem everywhere_declaredAnchors (c : Configuration) :
    c.Everywhere fun n => ∀ a ∈ n.label.anchor, a ∈ c.declaredAnchors := by
  have declared : ∀ t : Tree, (∀ e ∈ t.entries, e ∈ c.default.entries ++ c.environments.entries) →
      (t.top.map (·.data)).Everywhere fun n => ∀ a ∈ n.label.anchor, a ∈ c.declaredAnchors := by
    intro t ht
    exact (Rose.everywhere_map_label (p := fun d : NodeData => ∀ a ∈ d.anchor, a ∈ c.declaredAnchors)).2
      fun e he a ha => List.mem_filterMap.2 ⟨e, ht e he, ha⟩
  exact ⟨declared _ fun e he => List.mem_append_left _ he,
    declared _ fun e he => List.mem_append_right _ he⟩

theorem merged_concat (c : Configuration) (lineage : List Handle) (h : Handle) :
    c.merged (lineage ++ [h]) = (c.merged lineage).overlay (c.layer h) := by
  rw [merged, List.map_append, List.foldl_append]
  rfl

variable {P : Rose NodeData → Prop} {Q : Rose Layered → Prop}

theorem everywhere_layer (kept : KeptByLayers P Q) {c : Configuration} {h : Handle}
    (hd : ∀ d ∈ c.environments.extract h, d.Everywhere P) : (c.layer h).Everywhere Q := by
  unfold layer
  cases hr : c.environments.extract h with
  | none => exact ⟨kept.missing, Forest.everywhere_nil⟩
  | some r =>
    have hr := Rose.everywhere_layered kept.single (hd r hr)
    refine ⟨kept.without _ hr.1, ?_⟩
    rw [Rose.children_without]
    split
    · refine Forest.everywhere_iff_roots.2 fun x hx => hr.root ?_
      rw [Forest.roots_filterRoots] at hx
      exact List.mem_of_mem_filter hx
    · exact hr.2

/-- What layering keeps holds of every node of a merged document, if it holds of the layers. -/
theorem everywhere_merged_of_layers (kept : KeptByLayers P Q) {c : Configuration}
    {lineage : List Handle} (default : (c.default.top.map (·.data)).Everywhere P)
    (layers : ∀ h ∈ lineage, ∀ d ∈ c.environments.extract h, d.Everywhere P) :
    (c.merged lineage).Everywhere Q := by
  have merged : ∀ (hs : List Handle) (base : Rose Layered),
      (∀ h ∈ hs, ∀ d ∈ c.environments.extract h, d.Everywhere P) → base.Everywhere Q →
      ((hs.map c.layer).foldl .overlay base).Everywhere Q := by
    intro hs
    induction hs with
    | nil => exact fun _ _ hb => hb
    | cons h hs ih =>
      intro base layers hb
      obtain ⟨hh, hhs⟩ := List.forall_mem_cons.1 layers
      exact ih _ hhs (Rose.everywhere_overlay kept.overlay hb (everywhere_layer kept hh))
  exact merged lineage _ layers (Rose.everywhere_layered kept.single default)

/-- What layering keeps holds of every node of a merged document. -/
theorem everywhere_merged (kept : KeptByLayers P Q) {c : Configuration} (hc : c.Everywhere P)
    (lineage : List Handle) : (c.merged lineage).Everywhere Q :=
  everywhere_merged_of_layers kept hc.1 fun _ _ _ => Tree.everywhere_extract hc.2

theorem scalarLeaf_merged (c : Configuration) (lineage : List Handle) :
    (c.merged lineage).Everywhere Rose.ScalarLeaf :=
  everywhere_merged Rose.scalarLeaf_kept c.everywhere_true lineage

/-- Keys that do not repeat in the trees do not repeat in a merged document. -/
theorem keyed_merged {c : Configuration} (hc : c.UniqueKeys) (lineage : List Handle) :
    (c.merged lineage).Everywhere Rose.Keyed :=
  everywhere_merged Rose.keyed_kept hc.everywhere lineage

/-- An anchor of a merged document is one that a tree declares. -/
theorem anchors_merged (c : Configuration) (lineage : List Handle) :
    (c.merged lineage).Everywhere fun n => ∀ a ∈ n.label.anchors, a ∈ c.declaredAnchors :=
  everywhere_merged (Rose.anchors_kept _) c.everywhere_declaredAnchors lineage

end Configuration

end LayeredConfig
