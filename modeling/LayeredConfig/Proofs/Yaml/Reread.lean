import LayeredConfig.Proofs.Forest.Everywhere
import LayeredConfig.Proofs.Yaml.Parsed
import LayeredConfig.Proofs.Yaml.Tokens

/-!
# Reading what was written

A forest that is written without a fault has each alias behind its anchor (`resolved_of_nodeLines`), so
its text is read as the documents of its nodes (`readDocument_written`).
-/

namespace LayeredConfig.Yaml

/-! ## Anchors -/

/-- Scalars have nothing below them. -/
def ScalarLeaf (r : Rose NodeData) : Prop := r.label.type.isScalar → r.children = .nil

theorem isEmpty_eq_true {α : Type} {f : Forest α} : f.isEmpty = true ↔ f = .nil := by
  cases f <;> simp [Forest.isEmpty]

instance (r : Rose NodeData) : Decidable (ScalarLeaf r) :=
  decidable_of_iff (r.label.type.isScalar → r.children.isEmpty = true) (imp_congr_right fun _ => isEmpty_eq_true)

/-- A node that is written as an alias has no anchor. -/
theorem anchor_of_aliased {d : NodeData} {leaf : Bool} {name : String} {type : ValueType}
    (fine : unwritable? d leaf = none) (form : formOf d leaf = .aliased name type) : d.anchor = none := by
  cases h : d.anchor with
  | none => rfl
  | some a =>
    cases kind : d.type <;> cases leaf <;> cases list : d.aliases <;>
      simp [formOf, unwritable?, h, kind, list] at fine form

variable {H : History} {declared declared' : List String}

/-- The names of some declarations. -/
def Declares (H : History) (names : List String) : Prop := ∀ a ∈ names, (H.lookup a).isSome

theorem Declares.declare {d : NodeData} {leaf : Bool} {it : Item} (h : Declares H declared)
    (fine : unwritable? d leaf = none) (form : it.form = formOf d leaf) (anchor : it.anchor = d.anchor) :
    Declares (it.declare H) (d.anchor.toList ++ declared) := by
  have grown {a : String} {type : ValueType} : Declares ((a, type) :: H) (a :: declared) := by
    intro b hb
    rw [List.lookup_cons]
    split
    · rfl
    · rename_i other
      refine h b ((List.mem_cons.1 hb).resolve_left ?_)
      simpa using other
  rw [Item.declare, anchor]
  cases same : d.anchor with
  | none => split <;> exact h
  | some a =>
    rw [if_pos, Option.elim_some, Option.toList_some, List.singleton_append]
    · exact grown
    · cases kind : it.form with
      | aliased name type =>
        rw [anchor_of_aliased fine (form.symm.trans kind)] at same
        cases same
      | _ => rfl

theorem Shape.resolves {d : NodeData} {leaf : Bool} {form : Form} (shape : Shape d leaf form)
    (known : Declares H declared) (aliases : ∀ a ∈ d.aliases, a ∈ declared) : form.Resolves H := by
  cases shape with
  | aliased a type listed => exact known a (aliases a listed)
  | mapping => exact fun a ha => known a (aliases a ha)
  | _ => trivial

theorem Shape.leaf_of_isBottom {d : NodeData} {leaf : Bool} {form : Form} (shape : Shape d leaf form)
    (h : form.isBottom) : leaf = true := by
  cases shape with
  | mapping | sequence => cases h
  | aliased _ _ _ bottom | scalar _ bottom | emptyMapping bottom | emptySequence bottom => exact bottom

/-- Nodes are written one after the other, each before what is below it. -/
theorem nodeLines_cons_ok {dashes : Bool} {d : NodeData} {below ss : Forest NodeData} {path : String}
    {lines : List String} (leaf : ScalarLeaf ⟨d, below⟩)
    (h : nodeLines true path dashes (.cons d below ss) declared = .ok (lines, declared')) :
    ∃ here declared₁ declared₂ body rest, announce true d below.isEmpty here declared = .ok ((), declared₁) ∧
      nodeLines true here (d.type = .array) below declared₁ = .ok (body, declared₂) ∧
      nodeLines true path dashes ss declared₂ = .ok (rest, declared') := by
  rw [nodeLines] at h
  obtain ⟨⟨⟩, declared₁, announced, h⟩ := Outcome.run_bind_eq_ok.1 h
  split at h
  · obtain ⟨body, declared₂, written, h⟩ := Outcome.run_bind_eq_ok.1 h
    obtain ⟨rest, declared₃, later, h⟩ := Outcome.run_bind_eq_ok.1 h
    cases h
    exact ⟨_, _, _, body, rest, announced, written, later⟩
  · rename_i scalar
    obtain ⟨body, declared₂, written, h⟩ := Outcome.run_bind_eq_ok.1 h
    obtain ⟨rest, declared₃, later, h⟩ := Outcome.run_bind_eq_ok.1 h
    cases h
    obtain rfl : below = .nil := leaf (by simpa [ValueType.isContainer] using scalar)
    exact ⟨_, _, _, body, rest, announced, written, later⟩

/-- **Aliases are resolved.** In a forest that is written without a fault each alias stands behind its
anchor. -/
theorem resolved_of_nodeLines {dashes : Bool} {f : Forest NodeData} {path : String} {lines : List String}
    (h : nodeLines true path dashes f declared = .ok (lines, declared')) (leaves : f.Everywhere ScalarLeaf)
    (known : Declares H declared) (line : Nat) :
    Resolved H (items dashes line f) ∧ Declares (declareAll H (items dashes line f)) declared' := by
  induction f generalizing dashes path declared declared' lines line H with
  | nil => cases h; exact ⟨trivial, known⟩
  | cons d below ss ihc ihs =>
    obtain ⟨leaf, inner, others⟩ := Forest.everywhere_cons.1 leaves
    obtain ⟨_, declared₁, declared₂, body, rest, announced, written, later⟩ := nodeLines_cons_ok leaf h
    obtain ⟨rfl, aliases, fine⟩ := announce_ok announced
    have shape : Shape d below.isEmpty _ := shape_formOf fun scalar => isEmpty_eq_true.2 (leaf scalar)
    rw [items]
    generalize own : line + (commentLines d.comment).length = start
    have here : Declares ((itemOf dashes start d below).declare H) (d.anchor.toList ++ declared) :=
      known.declare fine rfl rfl
    obtain ⟨resolved, declares⟩ := ihc written inner here
      (blockLine dashes start d below + (formOf d below.isEmpty).mergeLines.length)
    obtain ⟨resolved', declares'⟩ := ihs later others declares
      (start + (ownLines dashes d below.isEmpty (linesOf (d.type = .array) below)).length)
    refine ⟨⟨shape.resolves here aliases, fun bottom => ?_, resolved, resolved'⟩, declares'⟩
    rw [isEmpty_eq_true.1 (shape.leaf_of_isBottom bottom)]
    rfl

/-! ## Types -/

/-- The type that a node with an anchor is read with: that of a scalar is told by its text. -/
def readType (d : NodeData) : ValueType :=
  if d.type.isContainer then d.type else ((scalarBack d.value).map Scalar.valueType).getD .string

/-- The declarations of nodes in the order of their text, the latest first. -/
def declarations (ds : List NodeData) : History :=
  (ds.filterMap fun d => d.anchor.map fun a => (a, readType d)).reverse

theorem declarations_append (ds es : List NodeData) :
    declarations (ds ++ es) = declarations es ++ declarations ds := by
  rw [declarations, List.filterMap_append, List.reverse_append, declarations, declarations]

theorem declarations_cons (d : NodeData) (ds : List NodeData) :
    declarations (d :: ds) = declarations ds ++ declarations [d] := declarations_append [d] ds

theorem type_formOf {d : NodeData} {leaf : Bool} (declared : (formOf d leaf).isDeclared) :
    (formOf d leaf).type = readType d := by
  cases type : d.type with
  | string | boolean | number =>
    have scalar : d.type.isContainer = false := by rw [type]; rfl
    rw [readType, scalar]
    rw [formOf_scalar scalar] at declared ⊢
    cases aliases : d.aliases with
    | nil => rfl
    | cons a as => rw [aliases] at declared; cases declared
  | object =>
    rw [readType, type]
    rcases formOf_object type leaf with same | ⟨merged, same⟩ | ⟨name, same⟩ <;> rw [same]
    all_goals rfl
  | array =>
    rw [readType, type]
    rcases formOf_array type leaf with same | same | ⟨name, same⟩ <;> rw [same]
    all_goals rfl

/-- A node declares its anchor under the type that it is read with. -/
theorem declare_itemOf {d : NodeData} {below : Forest NodeData} (fine : unwritable? d below.isEmpty = none)
    (dashes : Bool) (line : Nat) : (itemOf dashes line d below).declare H = declarations [d] ++ H := by
  rw [Item.declare, itemOf_form, itemOf_anchor]
  cases anchor : d.anchor with
  | none => simp [declarations, anchor]
  | some a =>
    have declared : (formOf d below.isEmpty).isDeclared := by
      cases form : formOf d below.isEmpty with
      | aliased name type =>
        rw [anchor_of_aliased fine form] at anchor
        cases anchor
      | _ => rfl
    rw [if_pos declared, type_formOf declared]
    simp [declarations, anchor]

/-- A forest declares its anchors in pre-order. -/
theorem declareAll_items {f : Forest NodeData}
    (fine : f.Everywhere fun r => unwritable? r.label r.children.isEmpty = none) (dashes : Bool) (line : Nat) :
    declareAll H (items dashes line f) = declarations f.preorder ++ H := by
  induction f generalizing dashes line H with
  | nil => rfl
  | cons d below ss ihc ihs =>
    obtain ⟨here, inner, others⟩ := Forest.everywhere_cons.1 fine
    rw [items, declareAll, declare_itemOf here, ihc inner, ihs others, Forest.preorder,
      declarations_cons d (below.preorder ++ ss.preorder), declarations_append, List.append_assoc, List.append_assoc]

/-- A document can hold all that is written without a fault. -/
theorem writable_of_nodeLines {dashes : Bool} {f : Forest NodeData} {path : String} {lines : List String}
    (h : nodeLines true path dashes f declared = .ok (lines, declared')) (leaves : f.Everywhere ScalarLeaf) :
    f.Everywhere fun r => unwritable? r.label r.children.isEmpty = none := by
  induction f generalizing dashes path declared declared' lines with
  | nil => exact Forest.everywhere_nil
  | cons d below ss ihc ihs =>
    obtain ⟨leaf, inner, others⟩ := Forest.everywhere_cons.1 leaves
    obtain ⟨_, declared₁, declared₂, body, rest, announced, written, later⟩ := nodeLines_cons_ok leaf h
    exact Forest.everywhere_cons.2 ⟨(announce_ok announced).2.2, ihc written inner, ihs later others⟩

/-! ## Documents -/

/-- **What was written is read.** The text of a forest that is written without a fault is read as the
documents of its nodes. -/
theorem readDocument_written {f : Forest NodeData} {lines declared : List String}
    (written : nodeLines true "" false f [] = .ok (lines, declared)) (leaves : f.Everywhere ScalarLeaf)
    (scannable : AllScannable false f) (nonempty : f ≠ .nil) (bare : leadingComments f = 0)
    (margin : ∀ d ∈ f.rootLabels, Margin 0 false d.key) :
    readDocument (joinLines lines) =
      .ok (some (.mapping 0 none (documents [] (items false 0 f))), .ofText (joinLines lines) []) := by
  rw [lines_eq written]
  exact readDocument_of_tokens (tokensOf_written scannable nonempty bare margin)
    (resolved_of_nodeLines written leaves (H := []) nofun 0).1

end LayeredConfig.Yaml
