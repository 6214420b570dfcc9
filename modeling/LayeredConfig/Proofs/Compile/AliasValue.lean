import LayeredConfig.Proofs.Compile.CompiledTree
import LayeredConfig.Proofs.Compile.OwnNodes

/-!
# The value of an alias

A scalar with an alias has the layers of its anchor, not the value that the anchor has in the
compiled tree: the text of the last layer is taken over, and its references are resolved once more,
from where the alias stands. So the two values are equal iff both resolutions give one text
(`alias_value_exact`); a reference that names the anchor's own key, or one that is nearer to the
alias than to the anchor, tells them apart (`ownKey_differs`).
-/

namespace LayeredConfig

/-- The first declaration of an anchor in the document is the one that counts. -/
theorem Expanding.content?_of_place {c : Configuration} {environment name : String}
    {document : Rose Layered} {place : Place}
    (h : document.anchorPlaces.lookup name = some (.place place)) :
    (ofConfiguration c environment document).content? name = document.at? place := by
  rw [content?, ofConfiguration, List.append_assoc, List.lookup_append, h]
  rfl

namespace Configuration

variable {c : Configuration} {m : Markers} {environment name : String} {lineage : List Handle}
  {document anchor copy : Rose Layered} {p q : Place} {history own : List (Option Scalar)}

/-- Where the document has a scalar without aliases, it still has it once expanded; where it has a
scalar whose alias names that one, it then has the same layers. -/
theorem layers_of_alias
    (hd : (Expanding.ofConfiguration c environment (c.merged lineage)).expanded = .ok document)
    (hq : (c.merged lineage).sole? q = some copy) (copied : copy.label.shape = .scalar own)
    (first : copy.label.aliases.head? = some name)
    (declared : (c.merged lineage).anchorPlaces.lookup name = some (.place p))
    (hp : (c.merged lineage).sole? p = some anchor) (plain : anchor.label.aliases = [])
    (scalar : anchor.label.shape = .scalar history) :
    (∃ n, document.at? p = some n ∧ n.label.shape = .scalar history) ∧
      ∃ n, document.at? q = some n ∧ n.label.shape = .scalar history := by
  obtain ⟨n, hn, foundp⟩ := Rose.at?_of_expanded hd hp
  obtain ⟨n', hn', foundq⟩ := Rose.at?_of_expanded hd hq
  obtain ⟨x, hx, rfl⟩ := Rose.expanded_of_alias hn' copied first
  obtain ⟨content, hcontent, -, hx⟩ := Expanding.expandAlias_eq_ok.1 hx
  have same : content = anchor := by
    rw [Expanding.content?_of_place declared, Rose.at?_of_sole? hp] at hcontent
    exact (Option.some.inj hcontent).symm
  subst same
  exact ⟨⟨n, foundp, Rose.shape_expanded_of_plain hn plain scalar⟩,
    ⟨_, foundq, Rose.shape_expanded_of_plain hx plain scalar⟩⟩

/-- A document that is no object expands to none, if there is a node below its root. -/
theorem shape_of_alias
    (hd : (Expanding.ofConfiguration c environment (c.merged lineage)).expanded = .ok document)
    (hq : (c.merged lineage).sole? q = some copy) (copied : copy.label.shape = .scalar own)
    (first : copy.label.aliases.head? = some name)
    (hp : (c.merged lineage).sole? p = some anchor) (plain : anchor.label.aliases = []) :
    document.label.shape = (c.merged lineage).label.shape := by
  cases q with
  | cons step q =>
    obtain ⟨child, hchild, -⟩ := Rose.sole?_cons.1 hq
    exact (Rose.child?_of_expanded hd hchild).1
  | nil =>
    cases hq
    cases p with
    | nil =>
      cases hp
      rw [plain] at first
      cases first
    | cons step p =>
      obtain ⟨child, hchild, -⟩ := Rose.sole?_cons.1 hp
      simp [Rose.childrenAt, copied] at hchild

/-- **What an alias sees of its anchor.** In any configuration and environment that compiles, let a
scalar at `q` have a first alias, and let the first declaration of its name be a scalar at `p`
without aliases. Both then have what the anchor's last layer reads as, at `p` and at `q`. These are
equal iff the text of that layer, if it is one, gives the same text with its references resolved
from `p` and from `q`. A document that is no object has no values at all. -/
theorem alias_value_exact {tree : Tree} (hl : c.lineage environment = .ok lineage)
    (hc : c.compile m environment = .ok tree)
    (hq : (c.merged lineage).sole? q = some copy) (copied : copy.label.shape = .scalar own)
    (first : copy.label.aliases.head? = some name)
    (declared : (c.merged lineage).anchorPlaces.lookup name = some (.place p))
    (hp : (c.merged lineage).sole? p = some anchor) (plain : anchor.label.aliases = [])
    (scalar : anchor.label.shape = .scalar history) :
    ∃ document value,
      (Expanding.ofConfiguration c environment (c.merged lineage)).expanded = .ok document ∧
      let e : Substituting := ⟨environment, m, document⟩
      let layer := history.length - 1
      e.Reading value ∧
      ((c.merged lineage).label.shape = .object →
        tree.valueAt? p = value ⟨p, layer⟩ ∧ tree.valueAt? q = value ⟨q, layer⟩) ∧
      (tree.valueAt? p = tree.valueAt? q ↔
        ((c.merged lineage).label.shape = .object →
          ∀ text, history.getLast?.join = some (.string text) →
            m.filled text (e.referent value ⟨p, layer⟩) =
              m.filled text (e.referent value ⟨q, layer⟩))) := by
  obtain ⟨lineage', document, value, hl', hd, hr, rfl⟩ := exists_reading_of_compile hc
  cases hl.symm.trans hl'
  refine ⟨document, value, hd, hr, ?_⟩
  obtain ⟨⟨np, foundp, shapep⟩, nq, foundq, shapeq⟩ :=
    layers_of_alias hd hq copied first declared hp plain scalar
  have root := shape_of_alias hd hq copied first hp plain
  by_cases object : (c.merged lineage).label.shape = .object
  · rw [if_pos (root.trans object)]
    have atp := Rose.valueAt?_of_scalar value (root.trans object) foundp shapep
    have atq := Rose.valueAt?_of_scalar value (root.trans object) foundq shapeq
    refine ⟨fun _ => ⟨atp, atq⟩, ?_⟩
    rw [atp, atq]
    have readp := hr _ (.last (Rose.mem_located_of_at? foundp) shapep)
    have readq := hr _ (.last (Rose.mem_located_of_at? foundq) shapeq)
    have lastp := Substituting.value?_last (e := ⟨environment, m, document⟩) foundp shapep
    have lastq := Substituting.value?_last (e := ⟨environment, m, document⟩) foundq shapeq
    rcases Scalar.string_or_other history.getLast?.join with ⟨text, string⟩ | other
    · rw [readp.eq_filled (lastp.trans string), readq.eq_filled (lastq.trans string)]
      simp only [Option.some.injEq, Scalar.string.injEq, string]
      exact ⟨fun same _ _ htext => htext ▸ same, fun same => same object text rfl⟩
    · rw [readp.other (lastp ▸ other), readq.other (lastq ▸ other), lastp, lastq]
      exact ⟨fun _ _ text h => absurd h (other text), fun _ => rfl⟩
  · rw [if_neg fun h => object (root.symm.trans h), Tree.valueAt?_ofDrafts_nil,
      Tree.valueAt?_ofDrafts_nil]
    exact ⟨fun h => absurd h object, fun _ h => absurd h object, fun _ => rfl⟩

/-- An anchor under `host`, its alias under `copy`, and an environment that sets `host`. -/
def copiedHost (override : String) : Configuration where
  default := .ofDrafts .default <|
    .cons { NodeData.ofScalar "host" (.string "local") with anchor := "h" } .nil <|
    .cons { key := "copy", type := .string, aliases := ["h"] } .nil .nil
  environments := .ofDrafts .environments <|
    .cons { key := "prod" } (.cons (.ofScalar "host" (.string override)) .nil .nil) .nil

/-- An override without references is seen by the alias. -/
theorem alias_value_exact_override :
    ∃ tree, (copiedHost "remote").compile .standard "prod" = .ok tree ∧
      tree.valueAt? [.key "host"] = tree.valueAt? [.key "copy"] := by
  obtain ⟨tree, hc⟩ : ∃ tree, (copiedHost "remote").compile .standard "prod" = .ok tree :=
    Outcome.isSome_toOption.1 (by decide +kernel)
  refine ⟨tree, hc, ?_⟩
  have lineage : (copiedHost "remote").lineage "prod" = .ok [1] := by cbv
  obtain ⟨document, value, -, -, -, same⟩ := alias_value_exact (p := [.key "host"])
    (q := [.key "copy"]) lineage hc (by rfl) (by rfl) (by rfl) (by rfl) (by rfl) (by rfl) (by rfl)
  have plain : Markers.references .standard "remote" = [] := by decide +kernel
  refine same.2 fun _ text htext => ?_
  cases htext
  rw [Markers.filled_of_references_eq_nil plain, Markers.filled_of_references_eq_nil plain]

/-- An override that refers to the value below it: for the alias the name means the anchor, so the
alias has the suffix twice. -/
theorem ownKey_differs :
    let c := copiedHost "$\x7bhost\x7d-prod"
    c.lineage "prod" = .ok [1] ∧
      (∃ anchor copy, (c.merged [1]).sole? [.key "host"] = some anchor ∧
        anchor.label.aliases = [] ∧
        anchor.label.shape =
          .scalar [some (.string "local"), some (.string "$\x7bhost\x7d-prod")] ∧
        (c.merged [1]).anchorPlaces.lookup "h" = some (.place [.key "host"]) ∧
        (c.merged [1]).sole? [.key "copy"] = some copy ∧
        copy.label.aliases.head? = some "h" ∧ copy.label.shape = .scalar [none]) ∧
      ∃ tree, c.compile .standard "prod" = .ok tree ∧
        tree.valueAt? [.key "host"] = some (.string "local-prod") ∧
        tree.valueAt? [.key "copy"] = some (.string "local-prod-prod") := by
  intro c
  refine ⟨by cbv, ⟨_, _, by rfl, by rfl, by rfl, by rfl, by rfl, by rfl, by rfl⟩, ?_⟩
  have values : (c.compile .standard "prod").toOption.map
      (fun tree => (tree.valueAt? [.key "host"], tree.valueAt? [.key "copy"])) =
        some (some (.string "local-prod"), some (.string "local-prod-prod")) := by
    decide +kernel
  obtain ⟨tree, hc, same⟩ := Option.map_eq_some_iff.1 values
  rw [Prod.mk.injEq] at same
  exact ⟨tree, Outcome.toOption_eq_some.1 hc, same⟩

end Configuration

end LayeredConfig
