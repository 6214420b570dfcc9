import LayeredConfig.Compile
import LayeredConfig.Proofs.Renaming.Document

/-!
# Compiled environments under new anchors

A relabelling that gives anchors new names and leaves keys and texts alone changes nothing that is
left in an expanded document: expansion takes all markers away (`layered_eq_self`). So the
relabelled configuration compiles to the same trees (`compile_reanchored_iff`).
-/

namespace LayeredConfig

namespace Relabelling

/-- The relabelling that gives anchors new names and leaves all else as it is. -/
def reanchoring (σ : Equiv.Perm String) : Relabelling where
  key := Equiv.refl String
  anchor := σ
  text := id
  inherits_fixed := rfl

variable {σ : Equiv.Perm String}

theorem scalar_reanchoring (v : Scalar) : (reanchoring σ).scalar v = v := by
  cases v <;> rfl

theorem values_reanchoring (v : Option Scalar) : v.map (reanchoring σ).scalar = v := by
  cases v with
  | none => rfl
  | some v => rw [Option.map_some, scalar_reanchoring]

theorem shape_reanchoring (s : Shape) : (reanchoring σ).shape s = s := by
  cases s with
  | scalar history =>
    have values : (Option.map (reanchoring σ).scalar) = id := funext values_reanchoring
    rw [shape, values, List.map_id]
  | object => rfl
  | array => rfl

theorem data_reanchoring (d : NodeData) :
    (reanchoring σ).data d = { d with anchor := d.anchor.map σ, aliases := d.aliases.map σ } := by
  rw [data, values_reanchoring]
  rfl

/-! ## What is taken back -/

theorem data_symm (d : NodeData) : (reanchoring σ.symm).data ((reanchoring σ).data d) = d := by
  obtain ⟨key, type, value, anchor, aliases, comment⟩ := d
  rw [data_reanchoring, data_reanchoring]
  dsimp only
  have anchors : (anchor.map σ).map σ.symm = anchor := by
    cases anchor with
    | none => rfl
    | some a => exact congrArg some (σ.symm_apply_apply a)
  rw [anchors, List.map_map, Equiv.symm_comp_self, List.map_id]

theorem tree_symm (t : Tree) : (reanchoring σ.symm).tree ((reanchoring σ).tree t) = t := by
  have same : (fun e : Entry => ({ e with data := (reanchoring σ.symm).data e.data } : Entry)) ∘
      (fun e => { e with data := (reanchoring σ).data e.data }) = id :=
    funext fun e => congrArg (Entry.mk e.handle) (data_symm e.data)
  rw [tree, tree, Tree.modifyAll, Tree.modifyAll]
  dsimp only
  rw [Rose.map_map, same, Rose.map_id]

theorem configuration_symm (c : Configuration) :
    (reanchoring σ.symm).configuration ((reanchoring σ).configuration c) = c := by
  rw [configuration, configuration, tree_symm, tree_symm]

/-! ## What is compiled -/

theorem keepsLineages_reanchoring (c : Configuration) : (reanchoring σ).KeepsLineages c where
  names _ _ := rfl
  inherits _ _ _ _ _ := values_reanchoring _

/-- What has no markers stays as it is. -/
theorem layered_eq_self {r : Rose Layered} (settled : r.Everywhere Rose.Settled) :
    r.map (reanchoring σ).layered = r := by
  have label : ∀ n : Rose Layered, n.Settled → (reanchoring σ).layered n.label = n.label := by
    intro n hn
    have anchors := hn.anchors
    have aliases := hn.aliases
    obtain ⟨⟨key, _, _, s⟩, _⟩ := n
    cases anchors
    cases aliases
    rw [layered, shape_reanchoring]
    rfl
  have forest : ∀ f : Forest Layered, f.Everywhere Rose.Settled →
      f.map (reanchoring σ).layered = f := by
    intro f
    induction f with
    | nil => exact fun _ => rfl
    | cons l cs ss ihc ihs =>
      intro hf
      obtain ⟨hl, hcs, hss⟩ := Forest.everywhere_cons.1 hf
      rw [Forest.map, ihc hcs, ihs hss, label ⟨l, cs⟩ hl]
  rw [Rose.map, label r settled.1, forest r.children settled.2]

variable {c : Configuration} {m : Markers} {environment : String}

theorem compileDraft_reanchored (sound : c.environments.Sound) {f : Forest NodeData}
    (h : c.compileDraft m environment = .ok f) :
    ((reanchoring σ).configuration c).compileDraft m environment = .ok f := by
  obtain ⟨lineage, hl, h⟩ := Outcome.bind_eq_ok.1 h
  obtain ⟨document, hd, h⟩ := Outcome.bind_eq_ok.1 h
  have merged := (reanchoring σ).merged_relabelled fun _ => Configuration.contains_of_lineage hl
  have expanded := (reanchoring σ).expanded_expanding hd
  rw [← expanding_ofConfiguration, ← merged, layered_eq_self (Expanding.settled_expanded hd)]
    at expanded
  exact Outcome.bind_eq_ok.2 ⟨lineage,
    ((keepsLineages_reanchoring c).lineage sound environment).trans hl,
    Outcome.bind_eq_ok.2 ⟨document, expanded, h⟩⟩

theorem compile_reanchored (sound : c.environments.Sound) {t : Tree}
    (h : c.compile m environment = .ok t) :
    ((reanchoring σ).configuration c).compile m environment = .ok t := by
  unfold Configuration.compile at h ⊢
  cases hf : c.compileDraft m environment with
  | error e =>
    rw [hf] at h
    cases h
  | ok f =>
    rw [hf] at h
    rw [compileDraft_reanchored sound hf]
    exact h

/-- New names for anchors change no compiled tree. -/
theorem compile_reanchored_iff (sound : c.environments.Sound) {t : Tree} :
    ((reanchoring σ).configuration c).compile m environment = .ok t ↔
      c.compile m environment = .ok t := by
  refine ⟨fun h => ?_, compile_reanchored sound⟩
  have sound' : ((reanchoring σ).configuration c).environments.Sound := sound.map fun _ => rfl
  have back := compile_reanchored (σ := σ.symm) sound' h
  rwa [configuration_symm] at back

end Relabelling

end LayeredConfig
