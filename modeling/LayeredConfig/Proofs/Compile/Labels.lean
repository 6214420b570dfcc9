import LayeredConfig.Proofs.Compile.Expansion

/-!
# The labels of an expanded document

Expansion takes markers away and puts contents under other keys; it makes nothing else of a label. What
layering keeps and these two steps keep holds of every node of the expanded document, if it holds of the
nodes of the configuration (`Expanding.everywhere_label_expanded`). So it is with what is said of keys
(`Expanding.everywhere_key_expanded`; the empty key stands for an environment that is not there) and of
values (`Expanding.everywhere_holds_expanded`).
-/

namespace LayeredConfig

/-- Expansion keeps `Q`: a label that loses its markers, or that gets the key of another, stays such. -/
structure KeptByExpansion (Q : Layered → Prop) : Prop where
  plain : ∀ l, Q l → Q l.plain
  keyed : ∀ l x : Layered, Q l → Q x → Q { x with key := l.key }

/-! ## One pass of expansion -/

variable {Q : Layered → Prop}

/-- Every node has such a label. -/
abbrev Rose.AllLabels (Q : Layered → Prop) (r : Rose Layered) : Prop := r.Everywhere fun n => Q n.label

/-- Every node has such a label. -/
abbrev Forest.AllLabels (Q : Layered → Prop) (f : Forest Layered) : Prop := f.Everywhere fun n => Q n.label

theorem Layered.allLabels_expanded (kept : KeptByExpansion Q) {l : Layered} {xs : List (Rose Layered)}
    {children : Forest Layered} (hl : Q l) (hx : ∀ x ∈ xs, x.AllLabels Q) (hc : children.AllLabels Q) :
    (l.expanded xs children).AllLabels Q := by
  have renamed : ∀ x ∈ xs, (x.withKey l.key).AllLabels Q := fun x inside =>
    ⟨kept.keyed l x.label hl (hx x inside).1, (hx x inside).2⟩
  have merged : ((suppliedEntries xs).putAll (·.key) children).AllLabels Q := by
    refine Forest.everywhere_iff_roots.2 fun r hr => ?_
    rcases Forest.mem_roots_putAll hr with hr | hr
    · obtain ⟨x, hx', hr⟩ := mem_roots_suppliedEntries hr
      exact (hx x hx').root hr
    · exact Forest.everywhere_iff_roots.1 hc r hr
  have plain := kept.plain l hl
  unfold expanded
  split
  · exact renamed _ List.mem_cons_self
  · exact renamed _ List.mem_cons_self
  · exact renamed _ List.mem_cons_self
  · exact ⟨plain, merged⟩
  · exact ⟨plain, hc⟩

section Pass

variable (kept : KeptByExpansion Q) {g : Place → String → Except CompileError (Rose Layered)}
  (hg : ∀ place name x, g place name = .ok x → x.AllLabels Q)

include kept hg

theorem Forest.allLabels_expanded {parent : Shape} {place : Place} {position : Nat}
    {f f' : Forest Layered} (hf : f.AllLabels Q) (h : f.expanded g parent place position = .ok f') :
    f'.AllLabels Q := by
  induction f generalizing parent place position f' with
  | nil =>
    rw [← Outcome.pure_eq_ok.1 h]
    exact everywhere_nil
  | cons l cs ss ihc ihs =>
    obtain ⟨hl, hcs, hss⟩ := everywhere_cons.1 hf
    obtain ⟨r, rest, hr, hs, rfl⟩ := expanded_cons_eq_ok.1 h
    obtain ⟨xs, children, hxs, hc, rfl⟩ := Rose.expanded_eq_ok.1 hr
    have node := Layered.allLabels_expanded kept hl (Outcome.forall_of_mapM_eq_ok (hg _) hxs) (ihc hcs hc)
    exact everywhere_cons.2 ⟨node.1, node.2, ihs hss hs⟩

theorem Rose.allLabels_expanded {place : Place} {r r' : Rose Layered} (hr : r.AllLabels Q)
    (h : r.expanded g place = .ok r') : r'.AllLabels Q := by
  obtain ⟨xs, children, hxs, hc, rfl⟩ := expanded_eq_ok.1 h
  exact Layered.allLabels_expanded kept hr.1 (Outcome.forall_of_mapM_eq_ok (hg _) hxs)
    (Forest.allLabels_expanded kept hg hr.2 hc)

end Pass

/-! ## The whole document -/

namespace Expanding

theorem allLabels_expandAlias (kept : KeptByExpansion Q) {e : Expanding}
    (hc : ∀ name content, e.content? name = some content → content.AllLabels Q)
    {available : List String} {place : Place} {name : String} {x : Rose Layered}
    (hx : e.expandAlias available place name = .ok x) : x.AllLabels Q := by
  obtain ⟨content, found, here, hx⟩ := expandAlias_eq_ok.1 hx
  exact Rose.allLabels_expanded kept (fun place name x hx => allLabels_expandAlias kept hc hx) (hc _ _ found) hx
termination_by available.length
decreasing_by exact length_erase_lt here

variable {c : Configuration} {environment : String} {lineage : List Handle} {document : Rose Layered}

/-- What layering and expansion keep holds of every label of the expanded document. -/
theorem everywhere_label_expanded {P : Rose NodeData → Prop} (layers : KeptByLayers P fun n => Q n.label)
    (kept : KeptByExpansion Q) (hc : c.Everywhere P)
    (h : (ofConfiguration c environment (c.merged lineage)).expanded = .ok document) :
    document.Everywhere fun n => Q n.label :=
  Rose.allLabels_expanded kept
    (fun _ _ _ hx => allLabels_expandAlias kept (fun _ _ found =>
      everywhere_content?_ofConfiguration layers hc found) hx)
    (Configuration.everywhere_merged layers hc lineage) h

end Expanding

/-! ## Keys -/

section Keys

variable {p : String → Prop}

/-- The keys of merged layers are keys of the trees. -/
theorem Rose.key_kept (blank : p "") :
    KeptByLayers (fun n => p n.label.key) (fun n => p n.label.key) where
  single _ hn := hn
  missing := blank
  without n hn := by
    rw [label_without]
    exact hn
  overlay l u hl _ := by
    rw [overlay, under_key]
    exact hl

theorem Layered.key_kept : KeptByExpansion fun l => p l.key where
  plain _ hl := hl
  keyed _ _ hl _ := hl

theorem Expanding.everywhere_key_expanded {c : Configuration} {environment : String} {lineage : List Handle}
    (blank : p "") (hc : c.Everywhere fun n => p n.label.key) {document : Rose Layered}
    (h : (ofConfiguration c environment (c.merged lineage)).expanded = .ok document) :
    document.Everywhere fun r => p r.label.key :=
  everywhere_label_expanded (Rose.key_kept blank) Layered.key_kept hc h

end Keys

/-! ## Values -/

section Values

variable {p : Option Scalar → Prop}

/-- Such are the values of a scalar, whichever layer gave them. -/
def Layered.Holds (p : Option Scalar → Prop) (l : Layered) : Prop :=
  ∀ history, l.shape = .scalar history → ∀ v ∈ history, p v

/-- The values of merged layers are values of the trees. -/
theorem Rose.holds_kept (missing : p none) :
    KeptByLayers (fun n => p n.label.value) (fun n => n.label.Holds p) where
  single n hn history shape := by
    unfold Rose.layered Layered.ofData at shape
    cases htype : n.label.type <;> simp only [htype] at shape <;> cases shape <;>
      exact List.forall_mem_singleton.2 hn
  missing history shape := by
    cases shape
    exact List.forall_mem_singleton.2 missing
  without n hn := by
    rw [label_without]
    exact hn
  overlay l u hl hu history shape := by
    rw [overlay, shape_under] at shape
    split at shape
    · rename_i lower upper lshape ushape
      cases shape
      exact List.forall_mem_append.2 ⟨hl lower lshape, hu upper ushape⟩
    · exact hu history shape

theorem Layered.holds_kept : KeptByExpansion (Layered.Holds p) where
  plain _ hl := hl
  keyed _ _ _ hx := hx

theorem Expanding.everywhere_holds_expanded {c : Configuration} {environment : String}
    {lineage : List Handle} (missing : p none) (hc : c.Everywhere fun n => p n.label.value)
    {document : Rose Layered}
    (h : (ofConfiguration c environment (c.merged lineage)).expanded = .ok document) :
    document.Everywhere fun r => r.label.Holds p :=
  everywhere_label_expanded (Rose.holds_kept missing) Layered.holds_kept hc h

end Values

end LayeredConfig
