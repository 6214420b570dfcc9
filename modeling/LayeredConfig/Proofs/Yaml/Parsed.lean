import LayeredConfig.Proofs.Yaml.Layout

/-!
# The document that the tokens tell

The automaton and the assembly are run side by side. `machine` and `builder` are the two after the
declarations of a `History`, the latest first: it gives each anchor its number, its name and its type.
`Leads` composes; by induction on the items, their tokens lead to their documents (`reads_forest`), and
so the document of a text is read off its tokens (`readDocument_of_tokens`).
-/

namespace LayeredConfig.Yaml

/-! ## Declarations -/

/-- The anchors declared so far with the types of their nodes, the latest first. -/
abbrev History := List (String × ValueType)

/-- The type that a node in a form is read with. That of an alias depends on its anchor. -/
def Form.type : Form → ValueType
  | .aliased _ type => type
  | .scalar value => ((scalarBack value).map Scalar.valueType).getD .string
  | .emptyMapping | .mapping _ => .object
  | .emptySequence | .sequence => .array

/-- Whether a node in a form may have an anchor. -/
def Form.isDeclared : Form → Bool
  | .aliased .. => false
  | _ => true

/-- The declarations with that of a node. -/
def Item.declare (it : Item) (H : History) : History :=
  if it.form.isDeclared then it.anchor.elim H fun a => (a, it.form.type) :: H else H

/-- The declarations with those of a forest. -/
def declareAll (H : History) : Forest Item → History
  | .nil => H
  | .cons it below ss => declareAll (declareAll (it.declare H) below) ss

/-- The aliases of a form name declared anchors. -/
def Form.Resolves (H : History) : Form → Prop
  | .aliased name _ => (H.lookup name).isSome
  | .mapping merged => ∀ a ∈ merged, (H.lookup a).isSome
  | _ => True

/-- Whether a node in a form has no entries of its own. -/
def Form.isBottom : Form → Bool
  | .mapping _ | .sequence => false
  | _ => true

/-- Each alias of a forest names an anchor declared before it. -/
def Resolved (H : History) : Forest Item → Prop
  | .nil => True
  | .cons it below ss =>
    it.form.Resolves (it.declare H) ∧ (it.form.isBottom → below = .nil) ∧ Resolved (it.declare H) below ∧
      Resolved (declareAll (it.declare H) below) ss

/-! ## Documents -/

/-- An alias of a declared anchor. -/
def aliasDocument (H : History) (line : Nat) (a : String) : Document :=
  .alias line a ((H.lookup a).getD .object)

/-- The entry that merges others. -/
def mergeEntry (H : History) (line : Nat) : List String → List (Document × Document)
  | [] => []
  | [a] => [(.scalar line none "<<" true, aliasDocument H line a)]
  | as => [(.scalar line none "<<" true, .sequence line none (as.map (aliasDocument H line)))]

/-- The document of an item, given those of its children. -/
def Item.document (it : Item) (H : History) (children : List (Document × Document)) : Document :=
  match it.form with
  | .aliased name _ => aliasDocument H it.line name
  | .scalar value => .scalar it.line it.anchor (scalarRead value) (scalarStyle value = .plain)
  | .emptyMapping => .mapping it.line it.anchor []
  | .emptySequence => .sequence it.line it.anchor []
  | .mapping merged => .mapping it.block it.anchor (mergeEntry H it.block merged ++ children)
  | .sequence => .sequence it.block it.anchor (children.map (·.2))

/-- The document of a key. -/
def Item.keyDocument (it : Item) : Document :=
  .scalar it.line none it.key (Quoting.styleOf it.key = .plain)

/-- The documents of a forest with those of their keys. -/
def documents (H : History) : Forest Item → List (Document × Document)
  | .nil => []
  | .cons it below ss =>
    (it.keyDocument, it.document (it.declare H) (documents (it.declare H) below)) ::
      documents (declareAll (it.declare H) below) ss

/-! ## Automaton and assembly -/

/-- The numbers of declared anchors. -/
def numbered : History → List (String × Nat)
  | [] => []
  | (a, _) :: H => (a, H.length + 1) :: numbered H

/-- The automaton after some declarations. -/
def machine (tokens : List Token) (state : Expectation) (stack : List Expectation) (H : History) : Automaton where
  tokens := tokens
  state := state
  stack := stack
  anchors := numbered H
  nextAnchor := H.length + 1

/-- The name that a token declares. -/
def TokenKind.anchorName? : TokenKind → Option String
  | .anchor name => some name
  | _ => none

/-- The names that tokens declare. -/
def anchorNames (tokens : List Token) : List String := tokens.filterMap (·.kind.anchorName?)

theorem anchorNames_cons {t : Token} (h : t.kind.anchorName? = none) (ts : List Token) :
    anchorNames (t :: ts) = anchorNames ts := List.filterMap_cons_none h

theorem anchorNames_anchor (m : Mark) (a : String) (ts : List Token) :
    anchorNames (⟨m, .anchor a⟩ :: ts) = a :: anchorNames ts := rfl

/-- The assembly after some declarations. -/
def builder (tokens : List Token) (H : History) (stack : List Frame) (root : Option Document) : Assembly where
  names := anchorNames tokens
  anchors := (numbered H).map Prod.swap
  types := H
  stack := stack
  root := root

/-- Whether a collection has begun whose first token is still to come. -/
def Expectation.isFirst : Expectation → Bool
  | .blockMappingKey first | .blockSequenceEntry first | .flowMappingKey first | .flowSequenceEntry first => first
  | _ => false

/-- A number of events that an automaton still has to tell no more than. A collection that is entered
has told its start, whose token is still to come. -/
def Automaton.weight (a : Automaton) : Nat := 4 * a.tokens.length - if a.state.isFirst then 2 else 0

theorem weight_machine (tokens : List Token) {state : Expectation} (h : state.isFirst = false)
    (stack : List Expectation) (H : History) : (machine tokens state stack H).weight = 4 * tokens.length := by
  simp [Automaton.weight, machine, h]

theorem weight_first (t : Token) (tokens : List Token) {state : Expectation} (h : state.isFirst = true)
    (stack : List Expectation) (H : History) :
    (machine (t :: tokens) state stack H).weight = 4 * tokens.length + 2 := by
  simp [Automaton.weight, machine, h]
  omega

/-- Some events lead the automaton and the assembly on. -/
def Leads (cs : List Char) (a : Automaton) (b : Assembly) (a' : Automaton) (b' : Assembly) : Prop :=
  ∃ events : List (Mark × Event),
    (∀ fuel, a.run (fuel + events.length) = (a'.run fuel).map (events ++ ·)) ∧
    b.receiveAll (events.map fun p => (lineOf cs p.1, p.2)) = b' ∧ events.length + a'.weight ≤ a.weight

namespace Leads

variable {cs : List Char} {a a' a'' : Automaton} {b b' b'' : Assembly}

theorem refl (a : Automaton) (b : Assembly) : Leads cs a b a b :=
  ⟨[], fun fuel => by simp, rfl, by simp⟩

theorem trans (first : Leads cs a b a' b') (second : Leads cs a' b' a'' b'') : Leads cs a b a'' b'' := by
  obtain ⟨es, run, told, weight⟩ := first
  obtain ⟨es', run', told', weight'⟩ := second
  refine ⟨es ++ es', fun fuel => ?_, ?_, by rw [List.length_append]; omega⟩
  · rw [List.length_append, Nat.add_comm es.length, ← Nat.add_assoc, run, run', Option.map_map]
    simp [Function.comp_def]
  · rw [← told', ← told, List.map_append, Assembly.receiveAll, List.foldl_append]
    rfl

/-- One event. -/
theorem step {m : Mark} {e : Event} (h : a.step = some ((m, e), a')) (live : e ≠ .streamEnd ∧ e ≠ .documentEnd)
    (weight : 1 + a'.weight ≤ a.weight) : Leads cs a b a' (b.receive (lineOf cs m) e) := by
  refine ⟨[(m, e)], fun fuel => ?_, rfl, weight⟩
  rw [List.length_singleton, Automaton.run, h]
  cases e <;> simp_all

end Leads

/-! ## Numbers and names -/

/-- A number above those given names no anchor. -/
theorem lookup_above (H : History) {n : Nat} (above : H.length < n) : ((numbered H).map Prod.swap).lookup n = none := by
  induction H with
  | nil => rfl
  | cons d H ih =>
    have other : (n == H.length + 1) = false := by simp only [List.length_cons] at above; simp; omega
    simp only [numbered, List.map_cons, Prod.swap_prod_mk, List.lookup_cons, other]
    exact ih (by simp only [List.length_cons] at above; omega)

/-- The number of a declared name leads back to it. -/
theorem exists_number {H : History} {a : String} (h : (H.lookup a).isSome) :
    ∃ n, (numbered H).lookup a = some n ∧ ((numbered H).map Prod.swap).lookup n = some a ∧ n ≤ H.length := by
  induction H with
  | nil => cases h
  | cons d H ih =>
    obtain ⟨b, type⟩ := d
    by_cases same : a = b
    · subst same
      exact ⟨H.length + 1, by simp [numbered], by simp [numbered], Nat.le_refl _⟩
    · have other : (a == b) = false := beq_eq_false_iff_ne.2 same
      rw [List.lookup_cons, other] at h
      obtain ⟨n, number, name, least⟩ := ih h
      have below : (n == H.length + 1) = false := by simp; omega
      exact ⟨n, by simp [numbered, List.lookup_cons, other, number], by
        simp [numbered, List.lookup_cons, below, name], by simp only [List.length_cons]; omega⟩

/-! ## Tokens as they are shown -/

variable {cs : List Char} {ts rest : List Token} {out : List (Nat × TokenKind)} {line l : Nat} {kind : TokenKind}

/-- The first of some tokens that are shown. -/
theorem exists_of_shown (h : ts.map (shown cs) = (l, kind) :: out) :
    ∃ m rest, ts = ⟨m, kind⟩ :: rest ∧ rest.map (shown cs) = out ∧ shown cs ⟨m, kind⟩ = (l, kind) := by
  cases ts with
  | nil => cases h
  | cons t rest =>
    rw [List.map_cons, List.cons.injEq] at h
    have same : (shown cs t).2 = t.kind := by
      rw [shown]
      split <;> rfl
    rw [h.1] at same
    obtain ⟨m, k⟩ := t
    obtain rfl : kind = k := same
    exact ⟨m, rest, rfl, h.2, h.1⟩

/-- A token that begins a node. -/
def TokenKind.BeginsNode : TokenKind → Prop
  | .alias _ | .anchor _ | .scalar .. | .flowSequenceStart | .flowMappingStart | .blockSequenceStart
  | .blockMappingStart => True
  | _ => False

theorem Form.tokens_begin (form : Form) (line block : Nat) (anchor : Option String)
    (children : List (Nat × TokenKind)) :
    ∃ l kind out, form.tokens line block anchor children = (l, kind) :: out ∧ kind.BeginsNode := by
  cases form <;> cases anchor <;> exact ⟨_, _, _, rfl, trivial⟩

/-! ## Anchors -/

/-- The declarations with that of an anchor, if there is one. -/
def declared (anchor : Option String) (type : ValueType) (H : History) : History :=
  anchor.elim H fun a => (a, type) :: H

/-- The number of an anchor that is declared next, zero for none. -/
def nextNumber (anchor : Option String) (H : History) : Nat := anchor.elim 0 fun _ => H.length + 1

/-- A token that is the content of a node. -/
def TokenKind.IsContent : TokenKind → Prop
  | .scalar .. | .flowSequenceStart | .flowMappingStart | .blockSequenceStart | .blockMappingStart => True
  | _ => False

theorem declare_builder {anchor : Option String} (names : anchorNames ts = anchor.toList ++ anchorNames rest)
    (H : History) (stack : List Frame) (root : Option Document) (type : ValueType) :
    (builder ts H stack root).declare (nextNumber anchor H) type =
      (anchor, builder rest (declared anchor type H) stack root) := by
  cases anchor with
  | none =>
    simp only [Option.toList_none, List.nil_append] at names
    simp [Assembly.declare, nextNumber, declared, builder, names]
  | some a =>
    have fresh := lookup_above H (Nat.lt_succ_self H.length)
    simp only [Option.toList_some, List.singleton_append] at names
    simp [Assembly.declare, nextNumber, declared, builder, names, fresh, numbered]

/-! ## Nodes -/

/-- The tokens `ts` tell a node, and those from `rest` on what follows it. -/
def ReadsNode (cs : List Char) (ts : List Token) (H : History) (rest : List Token) (H' : History)
    (doc : Document) : Prop :=
  ∀ (state after : Expectation) (stack : List Expectation) (block indentless : Bool) (frames : List Frame)
    (root : Option Document), after.isFirst = false → (block = false → ∃ m name ts', ts = ⟨m, .alias name⟩ :: ts') →
    ∃ m e a, (machine ts state (after :: stack) H).node block indentless = some ((m, e), a) ∧
      (e ≠ .streamEnd ∧ e ≠ .documentEnd) ∧ 1 + a.weight ≤ 4 * ts.length ∧
      Leads cs a ((builder ts H frames root).receive (lineOf cs m) e) (machine rest after stack H')
        ((builder rest H' frames root).insert doc)

/-- An alias of a declared anchor. -/
theorem reads_alias {H : History} {name : String} (h : ts.map (shown cs) = (line, .alias name) :: out)
    (known : (H.lookup name).isSome) :
    ∃ rest, rest.map (shown cs) = out ∧ ReadsNode cs ts H rest H (aliasDocument H line name) := by
  obtain ⟨m, rest, rfl, below, shows⟩ := exists_of_shown h
  refine ⟨rest, below, fun state after stack block indentless frames root final _ => ?_⟩
  obtain ⟨n, number, named, -⟩ := exists_number known
  have at_line : lineOf cs m = line := congrArg Prod.fst shows
  have names : anchorNames (⟨m, .alias name⟩ :: rest) = anchorNames rest := anchorNames_cons rfl rest
  refine ⟨m, .alias n, machine rest after stack H, ?_, by simp, ?_, ?_⟩
  · change ((numbered H).lookup name).map _ = _
    rw [number]
    rfl
  · rw [weight_machine rest final]
    simp only [List.length_cons]
    omega
  · have told : (builder (⟨m, .alias name⟩ :: rest) H frames root).receive (lineOf cs m) (.alias n) =
        (builder rest H frames root).insert (aliasDocument H line name) := by
      rw [at_line]
      simp [Assembly.receive, Assembly.closeBlock, builder, named, aliasDocument, names]
    rw [told]
    exact .refl _ _

/-- The start of a node with its anchor: what the automaton tells, and the assembly's declarations. -/
theorem node_machine {anchor : Option String} (h : ts.map (shown cs) = anchorTokens anchor ++ (l, kind) :: out)
    (content : kind.IsContent) (type : ValueType) (H : History) :
    ∃ m rest, rest.map (shown cs) = out ∧ shown cs ⟨m, kind⟩ = (l, kind) ∧ rest.length < ts.length ∧
      (∀ state stack block indentless, (machine ts state stack H).node block indentless =
        (machine (⟨m, kind⟩ :: rest) state stack (declared anchor type H)).content block indentless
          (nextNumber anchor H) anchor.isSome) ∧
      ∀ stack root, (builder ts H stack root).declare (nextNumber anchor H) type =
        (anchor, builder rest (declared anchor type H) stack root) := by
  have nameless : kind.anchorName? = none := by cases kind <;> first | rfl | cases content
  cases anchor with
  | none =>
    obtain ⟨m, rest, rfl, below, shows⟩ := exists_of_shown h
    refine ⟨m, rest, below, shows, by simp, fun state stack block indentless => ?_, fun stack root =>
      declare_builder (anchorNames_cons nameless rest) H stack root type⟩
    cases kind <;> first | rfl | cases content
  | some a =>
    obtain ⟨m₀, rest₀, rfl, h, -⟩ := exists_of_shown h
    obtain ⟨m, rest, rfl, below, shows⟩ := exists_of_shown h
    refine ⟨m, rest, below, shows, by simp only [List.length_cons]; omega,
      fun state stack block indentless => ?_, fun stack root =>
      declare_builder ?_ H stack root type⟩
    · cases kind <;> first | rfl | cases content
    · rw [anchorNames_anchor, anchorNames_cons nameless]
      rfl

theorem Quoting.styleOf_flat (s : String) : styleOf s ≠ .literal ∧ styleOf s ≠ .folded := by
  rw [styleOf]
  split
  · simp
  · split <;> simp

theorem scalarStyle_flat (value : Option Scalar) : scalarStyle value ≠ .literal ∧ scalarStyle value ≠ .folded := by
  rcases value with - | (s | b | n)
  · exact ⟨nofun, nofun⟩
  · exact Quoting.styleOf_flat s
  · exact ⟨nofun, nofun⟩
  · exact ⟨nofun, nofun⟩

/-- A scalar. -/
theorem reads_scalar {anchor : Option String} {value : Option Scalar} {H : History}
    (h : ts.map (shown cs) = anchorTokens anchor ++ (line, .scalar (scalarStyle value) (scalarRead value)) :: out) :
    ∃ rest, rest.map (shown cs) = out ∧
      ReadsNode cs ts H rest (declared anchor (Form.scalar value).type H)
        (.scalar line anchor (scalarRead value) (scalarStyle value = .plain)) := by
  obtain ⟨m, rest, below, shows, shorter, node, declare⟩ := node_machine h trivial (Form.scalar value).type H
  refine ⟨rest, below, fun state after stack block indentless frames root final _ => ?_⟩
  have at_line : lineOf cs m = line := congrArg Prod.fst shows
  obtain ⟨literal, folded⟩ := scalarStyle_flat value
  refine ⟨m, .scalar (scalarRead value) (scalarStyle value) (nextNumber anchor H),
    machine rest after stack (declared anchor (Form.scalar value).type H),
    (node _ _ _ _).trans rfl, by simp, ?_, ?_⟩
  · rw [weight_machine rest final]
    omega
  · have told : (builder ts H frames root).receive (lineOf cs m)
        (.scalar (scalarRead value) (scalarStyle value) (nextNumber anchor H)) =
        (builder rest (declared anchor (Form.scalar value).type H) frames root).insert
          (.scalar line anchor (scalarRead value) (scalarStyle value = .plain)) := by
      have same : (builder ts H frames root).closeBlock (lineOf cs m) = builder ts H frames root := rfl
      have inserted := congrArg (fun x => x.2.insert
        (.scalar line x.1 (scalarRead value) (scalarStyle value = .plain))) (declare frames root)
      rw [at_line] at same ⊢
      rw [Assembly.receive, same]
      simp only [literal, folded, or_self, if_false]
      rw [← inserted, Form.type, scalarBack]
      cases Document.scalarValue (scalarRead value) (scalarStyle value = .plain) <;> rfl
    rw [told]
    exact .refl _ _

/-! ## Collections -/

/-- The ways to write a collection. -/
inductive Bracket where
  | blockMapping
  | blockSequence
  | flowMapping
  | flowSequence

namespace Bracket

/-- The token that begins a collection. -/
def start : Bracket → TokenKind
  | .blockMapping => .blockMappingStart
  | .blockSequence => .blockSequenceStart
  | .flowMapping => .flowMappingStart
  | .flowSequence => .flowSequenceStart

/-- The token that ends a collection. -/
def stop : Bracket → TokenKind
  | .blockMapping | .blockSequence => .blockEnd
  | .flowMapping => .flowMappingEnd
  | .flowSequence => .flowSequenceEnd

/-- What the automaton expects inside a collection. -/
def state (first : Bool) : Bracket → Expectation
  | .blockMapping => .blockMappingKey first
  | .blockSequence => .blockSequenceEntry first
  | .flowMapping => .flowMappingKey first
  | .flowSequence => .flowSequenceEntry first

/-- The type of a collection. -/
def type : Bracket → ValueType
  | .blockMapping | .flowMapping => .object
  | .blockSequence | .flowSequence => .array

/-- An open collection with these entries, the last first. -/
def frame (line : Nat) (anchor : Option String) (entries : List (Document × Document)) : Bracket → Frame
  | .blockMapping | .flowMapping => .mapping line anchor entries none
  | .blockSequence | .flowSequence => .sequence line anchor (entries.map (·.2))

/-- A collection with these entries. -/
def document (line : Nat) (anchor : Option String) (entries : List (Document × Document)) : Bracket → Document
  | .blockMapping | .flowMapping => .mapping line anchor entries
  | .blockSequence | .flowSequence => .sequence line anchor (entries.map (·.2))

end Bracket

/-- The tokens of a collection, with the one that began it if no entry has been read. -/
def front (first : Bool) (t : Token) (ts : List Token) : List Token := if first then t :: ts else ts

theorem weight_front (b : Bracket) (first : Bool) (t : Token) (ts : List Token) (stack : List Expectation)
    (H : History) : 4 * ts.length ≤ (machine (front first t ts) (b.state first) stack H).weight := by
  cases first with
  | false => exact Nat.le_of_eq (weight_machine ts (by cases b <;> rfl) stack H).symm
  | true =>
    rw [front, if_pos rfl, weight_first t ts (by cases b <;> rfl)]
    omega

/-- The tokens `ts` tell entries of a collection, and those from `rest` on what follows them. -/
def ReadsEntries (cs : List Char) (b : Bracket) (ts : List Token) (H : History) (first : Bool) (rest : List Token)
    (H' : History) (first' : Bool) (entries : List (Document × Document)) : Prop :=
  ∀ (t : Token) (stack : List Expectation) (frames : List Frame) (root : Option Document) (line : Nat)
    (anchor : Option String) (before : List (Document × Document)),
    Leads cs (machine (front first t ts) (b.state first) stack H)
      (builder ts H (b.frame line anchor before :: frames) root)
      (machine (front first' t rest) (b.state first') stack H')
      (builder rest H' (b.frame line anchor (entries.reverse ++ before) :: frames) root)

namespace ReadsEntries

variable {b : Bracket} {H H' H'' : History} {first first' first'' : Bool} {rest' : List Token}
  {entries entries' : List (Document × Document)}

theorem refl (b : Bracket) (ts : List Token) (H : History) (first : Bool) :
    ReadsEntries cs b ts H first ts H first [] := fun _ _ _ _ _ _ _ => .refl _ _

theorem trans (h : ReadsEntries cs b ts H first rest H' first' entries)
    (h' : ReadsEntries cs b rest H' first' rest' H'' first'' entries') :
    ReadsEntries cs b ts H first rest' H'' first'' (entries ++ entries') := by
  intro t stack frames root line anchor before
  rw [List.reverse_append, List.append_assoc]
  exact (h t stack frames root line anchor before).trans (h' t stack frames root line anchor _)

end ReadsEntries

variable (cs) in
/-- The end of a collection. -/
theorem leads_stop (b : Bracket) (first : Bool) (t : Token) (m : Mark) (rest : List Token) {after : Expectation}
    (final : after.isFirst = false) (stack : List Expectation) (H : History) (frames : List Frame)
    (root : Option Document) (line : Nat) (anchor : Option String) (before : List (Document × Document)) :
    Leads cs (machine (front first t (⟨m, b.stop⟩ :: rest)) (b.state first) (after :: stack) H)
      (builder (⟨m, b.stop⟩ :: rest) H (b.frame line anchor before :: frames) root)
      (machine rest after stack H) ((builder rest H frames root).insert (b.document line anchor before.reverse)) := by
  have weight : 1 + (machine rest after stack H).weight ≤
      (machine (front first t (⟨m, b.stop⟩ :: rest)) (b.state first) (after :: stack) H).weight := by
    refine Nat.le_trans ?_ (weight_front b first t _ _ H)
    rw [weight_machine rest final, List.length_cons]
    omega
  cases b with
  | blockMapping | flowMapping =>
    cases first <;> exact Leads.step (e := .mappingEnd) rfl (by simp) weight
  | blockSequence | flowSequence =>
    have told : (Bracket.document line anchor before.reverse .blockSequence) =
        .sequence line anchor (before.map (·.2)).reverse := by
      rw [Bracket.document, List.map_reverse]
    cases first <;>
      exact told ▸ Leads.step (e := .sequenceEnd) rfl (by simp) weight

/-- **A collection.** Its tokens tell it if those between its ends tell its entries. -/
theorem reads_collection (b : Bracket) {anchor : Option String} {H H' : History}
    {entries : List (Document × Document)} {out' : List (Nat × TokenKind)}
    (h : ts.map (shown cs) = anchorTokens anchor ++ (l, b.start) :: out)
    (inside : ∀ ts', ts'.map (shown cs) = out → ∃ first rest, rest.map (shown cs) = (0, b.stop) :: out' ∧
      ReadsEntries cs b ts' (declared anchor b.type H) true rest H' first entries) :
    ∃ rest, rest.map (shown cs) = out' ∧ ReadsNode cs ts H rest H' (b.document l anchor entries) := by
  obtain ⟨m, ts', content, shows, shorter, node, declare⟩ := node_machine h (by cases b <;> trivial) b.type H
  obtain ⟨first, rest', told, entriesRead⟩ := inside ts' content
  obtain ⟨m', rest, rfl, below, -⟩ := exists_of_shown told
  refine ⟨rest, below, fun state after stack block indentless frames root final nested => ?_⟩
  have block' : block = true := Decidable.byContradiction fun flow => by
    obtain ⟨m₀, name, ts₀, rfl⟩ := nested (Bool.eq_false_iff.2 flow)
    cases anchor <;> cases b <;> simp [anchorTokens, shown, Bracket.start] at h
  subst block'
  have at_line : lineOf cs m = l := by
    have := congrArg Prod.fst shows
    cases b <;> exact this
  have started : ∃ e, e ≠ .streamEnd ∧ e ≠ .documentEnd ∧
      (machine (⟨m, b.start⟩ :: ts') state (after :: stack) (declared anchor b.type H)).content true indentless
        (nextNumber anchor H) anchor.isSome = some ((m, e),
          machine (⟨m, b.start⟩ :: ts') (b.state true) (after :: stack) (declared anchor b.type H)) ∧
      (builder ts H frames root).receive l e =
        builder ts' (declared anchor b.type H) (b.frame l anchor [] :: frames) root := by
    have opened (frame : Option String → Frame) := congrArg
      (fun x => ({ x.2 with stack := frame x.1 :: x.2.stack } : Assembly)) (declare frames root)
    cases b with
    | blockMapping | flowMapping =>
      exact ⟨.mappingStart (nextNumber anchor H), by simp, by simp, rfl, opened fun a => .mapping l a [] none⟩
    | blockSequence | flowSequence =>
      exact ⟨.sequenceStart (nextNumber anchor H), by simp, by simp, rfl, opened fun a => .sequence l a []⟩
  obtain ⟨e, live, live', contents, received⟩ := started
  refine ⟨m, e, _, (node _ _ _ _).trans contents, ⟨live, live'⟩, ?_, ?_⟩
  · rw [weight_first _ _ (by cases b <;> rfl)]
    omega
  · rw [at_line, received]
    have stopped := leads_stop cs b first ⟨m, b.start⟩ m' rest final stack H' frames root l anchor
      (entries.reverse ++ [])
    rw [List.append_nil, List.reverse_reverse] at stopped
    have read := entriesRead ⟨m, b.start⟩ (after :: stack) frames root l anchor []
    rw [List.append_nil] at read
    exact read.trans stopped

/-! ## Entries -/

/-- Tokens that begin a node. -/
def BeginsNode (ts : List Token) : Prop := ∃ t ts', ts = t :: ts' ∧ t.kind.BeginsNode

/-- An entry of a block mapping. -/
theorem reads_pair {style : Style} {text : String} {H H' : History} {out' : List (Nat × TokenKind)} {doc : Document}
    (h : ts.map (shown cs) = keyTokens line style text ++ out) (flat : style ≠ .literal ∧ style ≠ .folded)
    (node : ∀ ts', ts'.map (shown cs) = out → BeginsNode ts' ∧
      ∃ rest, rest.map (shown cs) = out' ∧ ReadsNode cs ts' H rest H' doc) (first : Bool) :
    ∃ rest, rest.map (shown cs) = out' ∧
      ReadsEntries cs .blockMapping ts H first rest H' false [(.scalar line none text (style = .plain), doc)] := by
  obtain ⟨m₁, ts₁, rfl, h, -⟩ := exists_of_shown h
  obtain ⟨m₂, ts₂, rfl, h, shows⟩ := exists_of_shown h
  obtain ⟨m₃, ts₃, rfl, h, -⟩ := exists_of_shown h
  obtain ⟨⟨t₄, ts₄, rfl, begins⟩, rest, below, reads⟩ := node ts₃ h
  refine ⟨rest, below, fun t stack frames root first_line anchor before => ?_⟩
  have at_line : lineOf cs m₂ = line := congrArg Prod.fst shows
  -- The key and its indicator.
  have key : Leads cs
      (machine (front first t (⟨m₁, .key⟩ :: ⟨m₂, .scalar style text⟩ :: ⟨m₃, .value⟩ :: t₄ :: ts₄))
        (.blockMappingKey first) stack H)
      (builder (⟨m₁, .key⟩ :: ⟨m₂, .scalar style text⟩ :: ⟨m₃, .value⟩ :: t₄ :: ts₄) H
        (.mapping first_line anchor before none :: frames) root)
      (machine (⟨m₃, .value⟩ :: t₄ :: ts₄) .blockMappingValue stack H)
      (builder (t₄ :: ts₄) H
        (.mapping first_line anchor before (some (.scalar line none text (style = .plain))) :: frames) root) := by
    have received : (builder (⟨m₁, .key⟩ :: ⟨m₂, .scalar style text⟩ :: ⟨m₃, .value⟩ :: t₄ :: ts₄) H
        (.mapping first_line anchor before none :: frames) root).receive (lineOf cs m₂) (.scalar text style 0) =
        builder (t₄ :: ts₄) H
          (.mapping first_line anchor before (some (.scalar line none text (style = .plain))) :: frames) root := by
      rw [at_line]
      simp [Assembly.receive, Assembly.closeBlock, builder, flat, Assembly.declare, Assembly.insert, Frame.add,
        anchorNames, TokenKind.anchorName?]
    rw [← received]
    refine Leads.step (m := m₂) ?_ (by simp) ?_
    · cases first <;> rfl
    · refine Nat.le_trans ?_ (weight_front .blockMapping first t _ _ H)
      rw [weight_machine _ rfl]
      simp only [List.length_cons]
      omega
  refine key.trans ?_
  obtain ⟨m, e, a, told, live, weight, leads⟩ := reads .blockMappingValue (.blockMappingKey false) stack true true
    (.mapping first_line anchor before (some (.scalar line none text (style = .plain))) :: frames) root rfl nofun
  refine (Leads.step ?_ live ?_).trans leads
  · obtain ⟨m₄, kind⟩ := t₄
    cases kind <;> first | exact told | cases begins
  · rw [weight_machine _ rfl]
    simp only [List.length_cons] at weight ⊢
    omega

/-- An entry of a block sequence. -/
theorem reads_item {H H' : History} {out' : List (Nat × TokenKind)} {doc : Document} (key : Document)
    (h : ts.map (shown cs) = (l, .blockEntry) :: out)
    (node : ∀ ts', ts'.map (shown cs) = out → BeginsNode ts' ∧
      ∃ rest, rest.map (shown cs) = out' ∧ ReadsNode cs ts' H rest H' doc) (first : Bool) :
    ∃ rest, rest.map (shown cs) = out' ∧
      ReadsEntries cs .blockSequence ts H first rest H' false [(key, doc)] := by
  obtain ⟨m₁, ts₁, rfl, h, -⟩ := exists_of_shown h
  obtain ⟨⟨t₂, ts₂, rfl, begins⟩, rest, below, reads⟩ := node ts₁ h
  refine ⟨rest, below, fun t stack frames root first_line anchor before => ?_⟩
  obtain ⟨m, e, a, told, live, weight, leads⟩ := reads (.blockSequenceEntry first) (.blockSequenceEntry false) stack
    true false (.sequence first_line anchor (before.map (·.2)) :: frames) root rfl nofun
  refine (Leads.step ?_ live ?_).trans leads
  · obtain ⟨m₂, kind⟩ := t₂
    cases kind <;> first | (cases first <;> exact told) | cases begins
  · refine Nat.le_trans ?_ (weight_front .blockSequence first t _ _ H)
    simp only [List.length_cons] at weight ⊢
    omega

/-! ## Merges -/

variable (cs) in
/-- An alias among those of a merge key. All but the first stand behind a comma. -/
theorem reads_listed {H : History} {name : String} (first : Bool)
    (h : ts.map (shown cs) = (if first then [] else [(0, .flowEntry)]) ++ (line, .alias name) :: out)
    (known : (H.lookup name).isSome) :
    ∃ rest, rest.map (shown cs) = out ∧
      ReadsEntries cs .flowSequence ts H first rest H false
        [(aliasDocument H line name, aliasDocument H line name)] := by
  cases first with
  | true =>
    obtain ⟨m, ts', rfl, -, -⟩ := exists_of_shown h
    obtain ⟨rest, below, reads⟩ := reads_alias h known
    refine ⟨rest, below, fun t stack frames root first_line anchor before => ?_⟩
    obtain ⟨m', e, a, told, live, weight, leads⟩ := reads (.flowSequenceEntry true) (.flowSequenceEntry false) stack
      false false (.sequence first_line anchor (before.map (·.2)) :: frames) root rfl fun _ => ⟨m, name, ts', rfl⟩
    refine (Leads.step ?_ live ?_).trans leads
    · exact told
    · exact Nat.le_trans weight (weight_front .flowSequence true t _ stack H)
  | false =>
    obtain ⟨m₀, ts₀, rfl, h, -⟩ := exists_of_shown h
    obtain ⟨m, ts', rfl, -, -⟩ := exists_of_shown h
    obtain ⟨rest, below, reads⟩ := reads_alias h known
    refine ⟨rest, below, fun t stack frames root first_line anchor before => ?_⟩
    obtain ⟨m', e, a, told, live, weight, leads⟩ := reads (.flowSequenceEntry false) (.flowSequenceEntry false) stack
      false false (.sequence first_line anchor (before.map (·.2)) :: frames) root rfl fun _ => ⟨m, name, ts', rfl⟩
    refine (Leads.step ?_ live ?_).trans leads
    · exact told
    · refine Nat.le_trans ?_ (weight_front .flowSequence false t _ stack H)
      simp only [List.length_cons] at weight ⊢
      omega

theorem intersperse_eq {α : Type} (a sep : α) (l : List α) :
    (a :: l).intersperse sep = a :: l.flatMap fun b => [sep, b] := by
  induction l generalizing a with
  | nil => rfl
  | cons b l ih => rw [List.intersperse_cons_cons, ih, List.flatMap_cons]; rfl

/-- The aliases of a merge key behind the first one. -/
theorem reads_more {H : History} {names : List String} (known : ∀ a ∈ names, (H.lookup a).isSome)
    (h : ts.map (shown cs) = (names.flatMap fun a => [(0, .flowEntry), (line, .alias a)]) ++ out) :
    ∃ rest, rest.map (shown cs) = out ∧ ReadsEntries cs .flowSequence ts H false rest H false
      (names.map fun a => (aliasDocument H line a, aliasDocument H line a)) := by
  induction names generalizing ts with
  | nil => exact ⟨ts, h, .refl _ _ _ _⟩
  | cons a names ih =>
    obtain ⟨ts', h, first⟩ := reads_listed cs false h (known a List.mem_cons_self)
    obtain ⟨rest, below, more⟩ := ih (fun b hb => known b (List.mem_cons_of_mem a hb)) h
    exact ⟨rest, below, first.trans more⟩

/-- The value of a merge key. -/
theorem reads_merged {H : History} {a b : String} {names : List String}
    (known : ∀ x ∈ a :: b :: names, (H.lookup x).isSome)
    (h : ts.map (shown cs) = (line, .flowSequenceStart) ::
      (((a :: b :: names).map fun a => (line, .alias a)).intersperse (0, .flowEntry) ++ (0, .flowSequenceEnd) :: out)) :
    ∃ rest, rest.map (shown cs) = out ∧
      ReadsNode cs ts H rest H (.sequence line none ((a :: b :: names).map (aliasDocument H line))) := by
  suffices read : ∃ rest, rest.map (shown cs) = out ∧ ReadsNode cs ts H rest H (Bracket.flowSequence.document line none
      ((a :: b :: names).map fun a => (aliasDocument H line a, aliasDocument H line a))) by
    simpa [Bracket.document, List.map_map, Function.comp_def] using read
  refine reads_collection .flowSequence h fun ts' inside => ?_
  rw [List.map_cons, intersperse_eq, List.cons_append] at inside
  obtain ⟨ts'', h, first⟩ := reads_listed cs true inside (known a List.mem_cons_self)
  rw [List.flatMap_map] at h
  obtain ⟨rest, below, more⟩ := reads_more (fun x hx => known x (List.mem_cons_of_mem a hx)) h
  exact ⟨false, rest, below, first.trans more⟩

/-- The merge key with its aliases, if there are any. -/
theorem reads_merge {H : History} {names : List String} (known : ∀ a ∈ names, (H.lookup a).isSome)
    (h : ts.map (shown cs) = mergeTokens line names ++ out) :
    ∃ rest, rest.map (shown cs) = out ∧
      ReadsEntries cs .blockMapping ts H true rest H names.isEmpty (mergeEntry H line names) := by
  have flat : Style.plain ≠ .literal ∧ Style.plain ≠ .folded := ⟨nofun, nofun⟩
  rcases names with - | ⟨a, - | ⟨b, names⟩⟩
  · exact ⟨ts, h, .refl _ _ _ _⟩
  · refine reads_pair h flat (fun ts' below => ⟨?_, ?_⟩) true
    · obtain ⟨m, rest, rfl, -, -⟩ := exists_of_shown below
      exact ⟨_, _, rfl, trivial⟩
    · exact reads_alias below (known a List.mem_cons_self)
  · have tokens : mergeTokens line (a :: b :: names) ++ out = keyTokens line .plain "<<" ++
        ((line, .flowSequenceStart) :: (((a :: b :: names).map fun a => (line, .alias a)).intersperse (0, .flowEntry) ++
          (0, .flowSequenceEnd) :: out)) := by
      simp [mergeTokens, keyTokens]
    rw [tokens] at h
    refine reads_pair h flat (fun ts' below => ⟨?_, reads_merged known below⟩) true
    obtain ⟨m, rest, rfl, -, -⟩ := exists_of_shown below
    exact ⟨_, _, rfl, trivial⟩

/-! ## Nodes and their entries -/

/-- How a collection with or without dashes is written. -/
def Bracket.block (dashes : Bool) : Bracket := if dashes then .blockSequence else .blockMapping

/-- The tokens of a forest tell its documents. -/
def ReadsForest (cs : List Char) (f : Forest Item) : Prop :=
  ∀ (H : History) (dashes : Bool) (ts : List Token) (out : List (Nat × TokenKind)), Resolved H f →
    ts.map (shown cs) = tokensIn dashes f ++ out → ∀ first, ∃ rest, rest.map (shown cs) = out ∧
      ReadsEntries cs (.block dashes) ts H first rest (declareAll H f) (first && f.isEmpty) (documents H f)

/-- **A node.** Its tokens tell its document if those of the nodes below it tell theirs. -/
theorem reads_node {it : Item} {below : Forest Item} (children : ReadsForest cs below) {H : History}
    (resolves : it.form.Resolves (it.declare H)) (bottom : it.form.isBottom → below = .nil)
    (inner : Resolved (it.declare H) below)
    (h : ts.map (shown cs) =
      it.form.tokens it.line it.block it.anchor (tokensIn it.form.isSequence below) ++ out) :
    ∃ rest, rest.map (shown cs) = out ∧ ReadsNode cs ts H rest (declareAll (it.declare H) below)
      (it.document (it.declare H) (documents (it.declare H) below)) := by
  obtain ⟨key, anchor, form, line, block⟩ := it
  cases form with
  | aliased name type =>
    rw [bottom rfl]
    exact reads_alias h resolves
  | scalar value =>
    rw [bottom rfl]
    refine reads_scalar ?_
    simpa [Form.tokens] using h
  | emptyMapping =>
    rw [bottom rfl]
    refine reads_collection .flowMapping ?_ fun ts' inside =>
      ⟨true, ts', inside, .refl _ _ _ _⟩
    simpa [Form.tokens, Bracket.start, Bracket.stop] using h
  | emptySequence =>
    rw [bottom rfl]
    refine reads_collection .flowSequence ?_ fun ts' inside =>
      ⟨true, ts', inside, .refl _ _ _ _⟩
    simpa [Form.tokens, Bracket.start, Bracket.stop] using h
  | mapping merged =>
    have told : ts.map (shown cs) = anchorTokens anchor ++ (block, Bracket.blockMapping.start) ::
        (mergeTokens block merged ++ (tokensIn false below ++ (0, .blockEnd) :: out)) := by
      simpa [Form.tokens, Form.isSequence, Bracket.start] using h
    refine reads_collection .blockMapping told fun ts' inside => ?_
    obtain ⟨ts'', below', merge⟩ := reads_merge resolves inside
    obtain ⟨rest, told, entries⟩ := children _ false ts'' _ inner below' merged.isEmpty
    exact ⟨_, rest, told, merge.trans entries⟩
  | sequence =>
    have told : ts.map (shown cs) = anchorTokens anchor ++ (block, Bracket.blockSequence.start) ::
        (tokensIn true below ++ (0, .blockEnd) :: out) := by
      simpa [Form.tokens, Form.isSequence, Bracket.start] using h
    refine reads_collection .blockSequence told fun ts' inside => ?_
    obtain ⟨rest, told, entries⟩ := children _ true ts' _ inner inside true
    exact ⟨_, rest, told, entries⟩

/-- **The entries of a forest.** By induction on the forest: a node after its lead, then the nodes
behind it with the declarations made so far. -/
theorem reads_forest (f : Forest Item) : ReadsForest cs f := by
  induction f with
  | nil =>
    intro H dashes ts out _ h first
    refine ⟨ts, h, ?_⟩
    rw [Forest.isEmpty, Bool.and_true]
    exact .refl _ _ _ _
  | cons it below ss ihc ihs =>
    rintro H dashes ts out ⟨resolves, bottom, inner, later⟩ h first
    rw [tokensIn, Item.tokens, List.append_assoc, List.append_assoc] at h
    have node (ts' : List Token) (hts : ts'.map (shown cs) =
        it.form.tokens it.line it.block it.anchor (tokensIn it.form.isSequence below) ++ (tokensIn dashes ss ++ out)) :
        BeginsNode ts' ∧ ∃ rest, rest.map (shown cs) = tokensIn dashes ss ++ out ∧
          ReadsNode cs ts' H rest (declareAll (it.declare H) below)
            (it.document (it.declare H) (documents (it.declare H) below)) := by
      refine ⟨?_, reads_node ihc resolves bottom inner hts⟩
      obtain ⟨l, kind, out', same, begins⟩ := it.form.tokens_begin it.line it.block it.anchor
        (tokensIn it.form.isSequence below)
      rw [same] at hts
      obtain ⟨m, rest, rfl, -, -⟩ := exists_of_shown hts
      exact ⟨_, _, rfl, begins⟩
    have entry : ∃ rest, rest.map (shown cs) = tokensIn dashes ss ++ out ∧
        ReadsEntries cs (.block dashes) ts H first rest (declareAll (it.declare H) below) false
          [(it.keyDocument, it.document (it.declare H) (documents (it.declare H) below))] := by
      cases dashes with
      | true => exact reads_item it.keyDocument h node first
      | false => exact reads_pair h (Quoting.styleOf_flat it.key) node first
    obtain ⟨rest, told, here⟩ := entry
    obtain ⟨rest', told', others⟩ := ihs _ dashes rest out later told false
    exact ⟨rest', told', by simpa [documents, declareAll, Forest.isEmpty] using here.trans others⟩

/-! ## The whole document -/

/-- The first two events, of which only the first takes a token. -/
theorem leads_start {m₀ m : Mark} {kind : TokenKind} (begins : kind.BeginsNode) (ts : List Token) (b : Assembly)
    (closed : b.openBlock = none) :
    Leads cs (machine (⟨m₀, .streamStart⟩ :: ⟨m, kind⟩ :: ts) .streamStart [] []) b
      (machine (⟨m, kind⟩ :: ts) .blockNode [.documentEnd] []) b := by
  have document : (machine (⟨m, kind⟩ :: ts) .implicitDocumentStart [] []).step =
      some ((m, .documentStart), machine (⟨m, kind⟩ :: ts) .blockNode [.documentEnd] []) := by
    cases kind <;> first | rfl | cases begins
  refine ⟨[(m₀, .streamStart), (m, .documentStart)], fun fuel => ?_, ?_, ?_⟩
  · have stream : (machine (⟨m₀, .streamStart⟩ :: ⟨m, kind⟩ :: ts) .streamStart [] []).step =
        some ((m₀, .streamStart), machine (⟨m, kind⟩ :: ts) .implicitDocumentStart [] []) := rfl
    rw [List.length_cons, List.length_singleton, ← Nat.add_assoc, Automaton.run, stream]
    dsimp only
    rw [Automaton.run, document]
    simp [Function.comp_def]
  · simp [Assembly.receiveAll, Assembly.receive, Assembly.closeBlock, closed]
  · rw [weight_machine _ rfl, weight_machine _ rfl]
    simp only [List.length_cons, List.length_nil]
    omega

/-- Where only the end of the text is left, the events are those that led there. -/
theorem eventsOf?_of_leads {m : Mark} {b b' : Assembly} {H : History}
    (leads : Leads cs (machine ts .streamStart [] []) b (machine [⟨m, .streamEnd⟩] .documentEnd [] H) b')
    (closed : b'.openBlock = none) :
    ∃ events, eventsOf? ts = some events ∧ b.receiveAll (events.map fun p => (lineOf cs p.1, p.2)) = b' := by
  obtain ⟨events, run, received, weight⟩ := leads
  rw [weight_machine _ rfl, weight_machine _ rfl] at weight
  refine ⟨events ++ [(m, .documentEnd)], ?_, ?_⟩
  · obtain ⟨fuel, split⟩ : ∃ fuel, 4 * ts.length + 4 = fuel + 1 + events.length :=
      ⟨4 * ts.length + 3 - events.length, by omega⟩
    have last : (machine [⟨m, .streamEnd⟩] .documentEnd [] H).run (fuel + 1) = some [(m, .documentEnd)] := rfl
    have whole := run (fuel + 1)
    rw [last, Option.map_some] at whole
    rw [eventsOf?, split]
    exact whole
  · rw [List.map_append, Assembly.receiveAll, List.foldl_append]
    rw [Assembly.receiveAll] at received
    rw [received]
    simp [Assembly.receive, Assembly.closeBlock, closed]

/-- What the assembly holds after the events of a text is its document. -/
theorem readDocument_of_assembled {text : String} {events : List (Mark × Event)} {b : Assembly}
    (run : eventsOf? (tokensOf text) = some events)
    (received : (builder (tokensOf text) [] [] none).receiveAll
      (events.map fun p => (lineOf text.toList p.1, p.2)) = b) (fine : b.error = none) :
    readDocument text = .ok (b.root, .ofText text b.blocks) := by
  subst received
  unfold readDocument
  simp only [run]
  generalize assembled : Assembly.receiveAll _ _ = a
  have same : (builder (tokensOf text) [] [] none).receiveAll
      (events.map fun p => (lineOf text.toList p.1, p.2)) = a := assembled
  rw [same] at fine ⊢
  rw [fine]

/-- **The document of a text.** A text whose tokens tell the items of a forest is read as their
documents. -/
theorem readDocument_of_tokens {text : String} {f : Forest Item}
    (tokens : (tokensOf text).map (shown text.toList) = (0, .streamStart) :: (l, .blockMappingStart) ::
      (tokensIn false f ++ [(0, .blockEnd), (0, .streamEnd)]))
    (resolved : Resolved [] f) :
    readDocument text = .ok (some (.mapping l none (documents [] f)), .ofText text []) := by
  have parsed : ∃ events, eventsOf? (tokensOf text) = some events ∧ ∃ H rest,
      (builder (tokensOf text) [] [] none).receiveAll (events.map fun p => (lineOf text.toList p.1, p.2)) =
        (builder rest H [] none).insert (.mapping l none (documents [] f)) := by
    generalize tokensOf text = ts at tokens
    obtain ⟨m₀, ts₀, rfl, below, -⟩ := exists_of_shown tokens
    obtain ⟨m₁, ts₁, rfl, -, -⟩ := exists_of_shown below
    obtain ⟨rest, told, reads⟩ : ∃ rest, rest.map (shown text.toList) = [(0, .streamEnd)] ∧
        ReadsNode text.toList (⟨m₁, .blockMappingStart⟩ :: ts₁) [] rest (declareAll [] f)
          (Bracket.blockMapping.document l none (documents [] f)) := by
      refine reads_collection .blockMapping below fun ts' inside => ?_
      obtain ⟨rest, told, entries⟩ := reads_forest f [] false ts' _ resolved inside true
      exact ⟨_, rest, told, entries⟩
    obtain ⟨m', rest', rfl, below', -⟩ := exists_of_shown told
    obtain rfl := List.map_eq_nil_iff.1 below'
    obtain ⟨m, e, a, node, live, weight, leads⟩ := reads .blockNode .documentEnd [] true false [] none rfl nofun
    have first : Leads text.toList (machine (⟨m₁, .blockMappingStart⟩ :: ts₁) .blockNode [.documentEnd] [])
        (builder (⟨m₁, .blockMappingStart⟩ :: ts₁) [] [] none) a
        ((builder (⟨m₁, .blockMappingStart⟩ :: ts₁) [] [] none).receive (lineOf text.toList m) e) :=
      Leads.step node live (by rw [weight_machine _ rfl]; exact weight)
    have start : Leads text.toList
        (machine (⟨m₀, .streamStart⟩ :: ⟨m₁, .blockMappingStart⟩ :: ts₁) .streamStart [] [])
        (builder (⟨m₁, .blockMappingStart⟩ :: ts₁) [] [] none)
        (machine (⟨m₁, .blockMappingStart⟩ :: ts₁) .blockNode [.documentEnd] [])
        (builder (⟨m₁, .blockMappingStart⟩ :: ts₁) [] [] none) :=
      leads_start (show TokenKind.blockMappingStart.BeginsNode from trivial) ts₁ _ rfl
    obtain ⟨events, run, received⟩ := eventsOf?_of_leads (start.trans (first.trans leads)) rfl
    exact ⟨events, run, _, _, received⟩
  obtain ⟨events, run, H, rest, received⟩ := parsed
  rw [readDocument_of_assembled run received rfl]
  rfl

end LayeredConfig.Yaml
