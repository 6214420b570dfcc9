import LayeredConfig.Proofs.Yaml.Parsed

/-!
# Events told back

A `Node` is a node as it is written: scalars, mappings and sequences with their anchors, and aliases,
each telling which of the anchors before it is meant. `Node.events` tells it with its anchors numbered
in the order of the document, and `Node.document` says what it stands for.

An assembly that gets the events puts the document into the collection that is open
(`receiveAll_node`). The induction is on the node, for every stack below; what is known of the
assembly on the way is `Assembly.Built`. Of a whole document: `receiveAll_document`.
-/

namespace LayeredConfig.Yaml

/-! ## Nodes -/

/-- Anchors with the types of their nodes, in the order of the document. -/
abbrev Declarations := List (String × ValueType)

/-- A node with the lines on which it starts and ends. An alias has the number of the anchor it
repeats, the first one of the document being one. -/
inductive Node where
  | scalar (line : Nat) (anchor : Option String) (text : String) (style : Style)
  | alias (line : Nat) (number : Nat)
  | mapping (line stop : Nat) (anchor : Option String) (entries : List (Node × Node))
  | sequence (line stop : Nat) (anchor : Option String) (items : List Node)
  deriving Repr, Inhabited

/-- What is declared by a node, if it has an anchor. -/
def declaration (anchor : Option String) (type : ValueType) : Declarations :=
  anchor.toList.map fun name => (name, type)

/-- The type of a scalar, that of one which stands for nothing being string. -/
def scalarType (text : String) (style : Style) : ValueType :=
  match Document.scalarValue text (style = .plain) with
  | some value => value.valueType
  | none => .string

/-- The name of an anchor by its number, `before` being what is declared. -/
def nameOf (before : Declarations) (number : Nat) : String :=
  (before[number - 1]?.map Prod.fst).getD ""

namespace Node

mutual

/-- What is declared in a node, in the order of the document. -/
def anchors : Node → Declarations
  | .scalar _ anchor text style => declaration anchor (scalarType text style)
  | .alias .. => []
  | .mapping _ _ anchor entries => declaration anchor .object ++ entryAnchors entries
  | .sequence _ _ anchor items => declaration anchor .array ++ itemAnchors items

/-- What is declared in the entries of a mapping, each key before its value. -/
def entryAnchors : List (Node × Node) → Declarations
  | [] => []
  | (key, value) :: entries => key.anchors ++ value.anchors ++ entryAnchors entries

/-- What is declared in the items of a sequence. -/
def itemAnchors : List Node → Declarations
  | [] => []
  | item :: items => item.anchors ++ itemAnchors items

end

mutual

/-- The events that tell a node after the declarations `before`. -/
def events (before : Declarations) : Node → List (Nat × Event)
  | .scalar line anchor text style => [(line, .scalar text style (nextNumber anchor before))]
  | .alias line number => [(line, .alias number)]
  | .mapping line stop anchor entries =>
    (line, .mappingStart (nextNumber anchor before)) ::
      (entryEvents (before ++ declaration anchor .object) entries ++ [(stop, .mappingEnd)])
  | .sequence line stop anchor items =>
    (line, .sequenceStart (nextNumber anchor before)) ::
      (itemEvents (before ++ declaration anchor .array) items ++ [(stop, .sequenceEnd)])

/-- The events that tell the entries of a mapping. -/
def entryEvents (before : Declarations) : List (Node × Node) → List (Nat × Event)
  | [] => []
  | (key, value) :: entries =>
    key.events before ++ (value.events (before ++ key.anchors) ++
      entryEvents (before ++ key.anchors ++ value.anchors) entries)

/-- The events that tell the items of a sequence. -/
def itemEvents (before : Declarations) : List Node → List (Nat × Event)
  | [] => []
  | item :: items => item.events before ++ itemEvents (before ++ item.anchors) items

end

mutual

/-- What a node stands for after the declarations `before`. An alias has the name of its anchor and
the type that was declared last under that name. -/
def document (before : Declarations) : Node → Document
  | .scalar line anchor text style => .scalar line anchor text (style = .plain)
  | .alias line number => aliasDocument before.reverse line (nameOf before number)
  | .mapping line _ anchor entries =>
    .mapping line anchor (entryDocuments (before ++ declaration anchor .object) entries)
  | .sequence line _ anchor items =>
    .sequence line anchor (itemDocuments (before ++ declaration anchor .array) items)

/-- What the entries of a mapping stand for. -/
def entryDocuments (before : Declarations) : List (Node × Node) → List (Document × Document)
  | [] => []
  | (key, value) :: entries =>
    (key.document before, value.document (before ++ key.anchors)) ::
      entryDocuments (before ++ key.anchors ++ value.anchors) entries

/-- What the items of a sequence stand for. -/
def itemDocuments (before : Declarations) : List Node → List Document
  | [] => []
  | item :: items => item.document before :: itemDocuments (before ++ item.anchors) items

end

mutual

/-- Whether each alias in a node repeats an anchor that is declared before it. -/
def resolved (before : Declarations) : Node → Bool
  | .scalar .. => true
  | .alias _ number => 0 < number && number ≤ before.length
  | .mapping _ _ anchor entries => resolvedEntries (before ++ declaration anchor .object) entries
  | .sequence _ _ anchor items => resolvedItems (before ++ declaration anchor .array) items

/-- Whether this holds of each node in the entries of a mapping. -/
def resolvedEntries (before : Declarations) : List (Node × Node) → Bool
  | [] => true
  | (key, value) :: entries =>
    key.resolved before && value.resolved (before ++ key.anchors) &&
      resolvedEntries (before ++ key.anchors ++ value.anchors) entries

/-- Whether this holds of each item of a sequence. -/
def resolvedItems (before : Declarations) : List Node → Bool
  | [] => true
  | item :: items => item.resolved before && resolvedItems (before ++ item.anchors) items

end

end Node

/-! ## Numbers of anchors -/

/-- A number up to the count of the declarations is that of one with its name. -/
theorem exists_declaration {before : Declarations} {number : Nat} (positive : 0 < number)
    (inside : number ≤ before.length) : ∃ type, before[number - 1]? = some (nameOf before number, type) := by
  have below : number - 1 < before.length := by omega
  refine ⟨before[number - 1].2, ?_⟩
  rw [nameOf, List.getElem?_eq_getElem below]
  rfl

/-- Anchors are numbered from one on, in the order of their declarations. -/
theorem lookup_numbered (H : History) {n : Nat} (positive : 0 < n) :
    ((numbered H).map Prod.swap).lookup n = H.reverse[n - 1]?.map Prod.fst := by
  induction H with
  | nil => rfl
  | cons d H ih =>
    obtain ⟨a, type⟩ := d
    rw [numbered, List.map_cons, Prod.swap_prod_mk, List.lookup_cons, List.reverse_cons]
    by_cases last : n = H.length + 1
    · subst last
      simp
    · have other : (n == H.length + 1) = false := beq_eq_false_iff_ne.2 last
      rw [other, ih]
      rcases Nat.lt_or_ge (n - 1) H.length with inside | above
      · rw [List.getElem?_append_left (by simpa using inside)]
      · rw [List.getElem?_eq_none (by simpa using above), List.getElem?_eq_none (by simp; omega)]

/-! ## Assemblies -/

namespace Assembly

/-- An assembly without an error that has met some anchors and has these names to come. What it
knows of block scalars is left open. -/
structure Built (a : Assembly) (names : List String) (before : Declarations)
    (stack : List Frame) (root : Option Document) : Prop where
  names : a.names = names
  anchors : a.anchors = (numbered before.reverse).map Prod.swap
  types : a.types = before.reverse
  stack : a.stack = stack
  root : a.root = root
  error : a.error = none

theorem receiveAll_cons (a : Assembly) (line : Nat) (e : Event) (events : List (Nat × Event)) :
    a.receiveAll ((line, e) :: events) = (a.receive line e).receiveAll events :=
  rfl

theorem receiveAll_append (a : Assembly) (first second : List (Nat × Event)) :
    a.receiveAll (first ++ second) = (a.receiveAll first).receiveAll second :=
  List.foldl_append

namespace Built

variable {a : Assembly} {names : List String} {before : Declarations} {stack : List Frame}
  {root : Option Document}

theorem closeBlock (ha : a.Built names before stack root) (line : Nat) :
    (a.closeBlock line).Built names before stack root := by
  unfold Assembly.closeBlock
  split
  · exact ha
  · exact ⟨ha.names, ha.anchors, ha.types, ha.stack, ha.root, ha.error⟩

/-- An anchor gets the next number and takes the next name. -/
theorem declare {anchor : Option String} {type : ValueType}
    (ha : a.Built ((declaration anchor type).map Prod.fst ++ names) before stack root) :
    (a.declare (nextNumber anchor before) type).1 = anchor ∧
      (a.declare (nextNumber anchor before) type).2.Built names (before ++ declaration anchor type) stack root := by
  cases anchor with
  | none =>
    refine ⟨rfl, ?_⟩
    simpa [declaration, nextNumber, Assembly.declare] using ha
  | some name =>
    have fresh : a.anchors.lookup (before.length + 1) = none := by
      rw [ha.anchors]
      exact lookup_above before.reverse (by simp)
    have next : a.names = name :: names := ha.names
    have told : a.declare (nextNumber (some name) before) type =
        (some name, { a with names := names, anchors := (before.length + 1, name) :: a.anchors,
                             types := (name, type) :: a.types }) := by
      simp [Assembly.declare, nextNumber, fresh, next]
    rw [told]
    refine ⟨rfl, rfl, ?_, ?_, ha.stack, ha.root, ha.error⟩
    · simp [declaration, numbered, ha.anchors]
    · simp [declaration, ha.types]

/-- A node goes into the collection that is open. -/
theorem insert {frame : Frame} (ha : a.Built names before (frame :: stack) root) (d : Document) :
    (a.insert d).Built names before (frame.add d :: stack) root := by
  unfold Assembly.insert
  rw [ha.stack]
  exact ⟨ha.names, ha.anchors, ha.types, rfl, ha.root, ha.error⟩

/-- The first node outside all collections is the root. -/
theorem insert_root (ha : a.Built names before [] none) (d : Document) :
    (a.insert d).Built names before [] (some d) := by
  have told : a.insert d = { a with root := some d } := by simp [Assembly.insert, ha.stack, ha.root]
  rw [told]
  exact ⟨ha.names, ha.anchors, ha.types, ha.stack, rfl, ha.error⟩

/-! ### Events -/

/-- A scalar is declared and goes into the collection that is open. -/
theorem scalar {anchor : Option String} {text : String} {style : Style}
    (ha : a.Built ((declaration anchor (scalarType text style)).map Prod.fst ++ names) before stack root) (line : Nat) :
    ∃ b : Assembly, b.Built names (before ++ declaration anchor (scalarType text style)) stack root ∧
      a.receive line (.scalar text style (nextNumber anchor before)) =
        b.insert (.scalar line anchor text (style = .plain)) := by
  have hc := ha.closeBlock line
  -- A literal or folded scalar opens a block, of which nothing is said here.
  let opened : Assembly :=
    if style = .literal ∨ style = .folded then { a.closeBlock line with openBlock := some line }
    else a.closeBlock line
  have ho : opened.Built ((declaration anchor (scalarType text style)).map Prod.fst ++ names) before stack root := by
    unfold opened
    split
    · exact ⟨hc.names, hc.anchors, hc.types, hc.stack, hc.root, hc.error⟩
    · exact hc
  obtain ⟨name, hb⟩ := ho.declare
  refine ⟨_, hb, ?_⟩
  show (opened.declare (nextNumber anchor before) (scalarType text style)).2.insert
    (.scalar line (opened.declare (nextNumber anchor before) (scalarType text style)).1 text (style = .plain)) = _
  rw [name]

/-- An alias has the name of the anchor with its number, and the type that this name has by now. -/
theorem aliased {number : Nat} (ha : a.Built names before stack root) (positive : 0 < number)
    (inside : number ≤ before.length) (line : Nat) :
    ∃ b : Assembly, b.Built names before stack root ∧
      a.receive line (.alias number) = b.insert (aliasDocument before.reverse line (nameOf before number)) := by
  have hc := ha.closeBlock line
  refine ⟨a.closeBlock line, hc, ?_⟩
  obtain ⟨type, declared⟩ := exists_declaration positive inside
  have named : (a.closeBlock line).anchors.lookup number = some (nameOf before number) := by
    rw [hc.anchors, lookup_numbered _ positive, List.reverse_reverse, declared]
    rfl
  simp only [receive, named, hc.types, aliasDocument]

theorem mappingStart {anchor : Option String}
    (ha : a.Built ((declaration anchor .object).map Prod.fst ++ names) before stack root) (line : Nat) :
    (a.receive line (.mappingStart (nextNumber anchor before))).Built names (before ++ declaration anchor .object)
      (.mapping line anchor [] none :: stack) root := by
  obtain ⟨name, hb⟩ := (ha.closeBlock line).declare
  refine ⟨hb.names, hb.anchors, hb.types, ?_, hb.root, hb.error⟩
  simp only [receive, name, hb.stack]

theorem sequenceStart {anchor : Option String}
    (ha : a.Built ((declaration anchor .array).map Prod.fst ++ names) before stack root) (line : Nat) :
    (a.receive line (.sequenceStart (nextNumber anchor before))).Built names (before ++ declaration anchor .array)
      (.sequence line anchor [] :: stack) root := by
  obtain ⟨name, hb⟩ := (ha.closeBlock line).declare
  refine ⟨hb.names, hb.anchors, hb.types, ?_, hb.root, hb.error⟩
  simp only [receive, name, hb.stack]

/-- A collection that is open at the end of its events goes into the one around it. -/
theorem collection {line : Nat} {first last : Event} {events : List (Nat × Event)} {frame : Frame}
    (inside : ((a.receive line first).receiveAll events).Built names before (frame :: stack) root) (stop : Nat)
    (ends : last = .mappingEnd ∨ last = .sequenceEnd) :
    ∃ b : Assembly, b.Built names before stack root ∧
      a.receiveAll ((line, first) :: (events ++ [(stop, last)])) = b.insert frame.close := by
  let c := (a.receive line first).receiveAll events
  have hc : (c.closeBlock stop).Built names before (frame :: stack) root := inside.closeBlock stop
  refine ⟨{ c.closeBlock stop with stack }, ⟨hc.names, hc.anchors, hc.types, rfl, hc.root, hc.error⟩, ?_⟩
  rw [receiveAll_cons, receiveAll_append]
  show c.receive stop last = _
  rcases ends with rfl | rfl <;> simp only [receive, hc.stack]

end Built

/-! ## Runs -/

mutual

/-- **Nodes.** The events of a node put its document into the collection that is open, whatever the
stack is below. -/
theorem receiveAll_node : ∀ (node : Node) {a : Assembly} {names : List String} {before : Declarations}
    {stack : List Frame} {root : Option Document}, node.resolved before →
    a.Built (node.anchors.map Prod.fst ++ names) before stack root →
    ∃ b : Assembly, b.Built names (before ++ node.anchors) stack root ∧
      a.receiveAll (node.events before) = b.insert (node.document before)
  | .scalar line anchor text style, _, _, _, _, _, _, ha => ha.scalar line
  | .alias line number, a, names, before, stack, root, known, ha => by
    rw [Node.resolved, Bool.and_eq_true, decide_eq_true_eq, decide_eq_true_eq] at known
    obtain ⟨b, hb, told⟩ := Built.aliased ha known.1 known.2 line
    refine ⟨b, ?_, told⟩
    rw [Node.anchors, List.append_nil]
    exact hb
  | .mapping line stop anchor entries, a, names, before, stack, root, known, ha => by
    rw [Node.anchors, List.map_append, List.append_assoc] at ha
    have inside := receiveAll_entries entries known (ha.mappingStart line)
    simpa [Node.anchors, Node.events, Node.document, Frame.close] using inside.collection stop (.inl rfl)
  | .sequence line stop anchor items, a, names, before, stack, root, known, ha => by
    rw [Node.anchors, List.map_append, List.append_assoc] at ha
    have inside := receiveAll_items items known (ha.sequenceStart line)
    simpa [Node.anchors, Node.events, Node.document, Frame.close] using inside.collection stop (.inr rfl)

theorem receiveAll_entries : ∀ (entries : List (Node × Node)) {a : Assembly} {names : List String}
    {before : Declarations} {stack : List Frame} {root : Option Document} {line : Nat}
    {anchor : Option String} {done : List (Document × Document)}, Node.resolvedEntries before entries →
    a.Built ((Node.entryAnchors entries).map Prod.fst ++ names) before (.mapping line anchor done none :: stack) root →
    (a.receiveAll (Node.entryEvents before entries)).Built names (before ++ Node.entryAnchors entries)
      (.mapping line anchor ((Node.entryDocuments before entries).reverse ++ done) none :: stack) root
  | [], a, names, before, stack, root, line, anchor, done, _, ha => by
    simpa [Node.entryAnchors, Node.entryEvents, Node.entryDocuments, receiveAll] using ha
  | (key, value) :: entries, a, names, before, stack, root, line, anchor, done, known, ha => by
    rw [Node.resolvedEntries, Bool.and_eq_true, Bool.and_eq_true] at known
    obtain ⟨⟨knownKey, knownValue⟩, later⟩ := known
    rw [Node.entryAnchors, List.map_append, List.map_append, List.append_assoc, List.append_assoc] at ha
    -- The key waits in the open mapping until its value comes.
    obtain ⟨b, hb, keyTold⟩ := receiveAll_node key knownKey ha
    obtain ⟨c, hc, valueTold⟩ := receiveAll_node value knownValue (hb.insert (key.document before))
    have rest := receiveAll_entries entries later (hc.insert (value.document (before ++ key.anchors)))
    rw [Node.entryEvents, receiveAll_append, receiveAll_append, keyTold, valueTold]
    simpa [Node.entryAnchors, Node.entryDocuments, List.append_assoc] using rest

theorem receiveAll_items : ∀ (items : List Node) {a : Assembly} {names : List String}
    {before : Declarations} {stack : List Frame} {root : Option Document} {line : Nat}
    {anchor : Option String} {done : List Document}, Node.resolvedItems before items →
    a.Built ((Node.itemAnchors items).map Prod.fst ++ names) before (.sequence line anchor done :: stack) root →
    (a.receiveAll (Node.itemEvents before items)).Built names (before ++ Node.itemAnchors items)
      (.sequence line anchor ((Node.itemDocuments before items).reverse ++ done) :: stack) root
  | [], a, names, before, stack, root, line, anchor, done, _, ha => by
    simpa [Node.itemAnchors, Node.itemEvents, Node.itemDocuments, receiveAll] using ha
  | item :: items, a, names, before, stack, root, line, anchor, done, known, ha => by
    rw [Node.resolvedItems, Bool.and_eq_true] at known
    rw [Node.itemAnchors, List.map_append, List.append_assoc] at ha
    obtain ⟨b, hb, told⟩ := receiveAll_node item known.1 ha
    have rest := receiveAll_items items known.2 (hb.insert (item.document before))
    rw [Node.itemEvents, receiveAll_append, told]
    simpa [Node.itemAnchors, Node.itemDocuments, List.append_assoc] using rest

end

/-- **Events told back.** The events of a document in which each alias repeats an anchor declared
before it, with the names of its anchors, leave no open collection, no error and no name of the
document, and as the root what its node stands for. -/
theorem receiveAll_document (node : Node) (names : List String) (first second last : Nat)
    (resolved : node.resolved []) :
    let a : Assembly := { names := node.anchors.map Prod.fst ++ names }
    let b := a.receiveAll
      ((first, .streamStart) :: (second, .documentStart) :: node.events [] ++ [(last, .documentEnd)])
    b.stack = [] ∧ b.error = none ∧ b.root = some (node.document []) ∧ b.names = names := by
  intro a b
  have start : a.Built (node.anchors.map Prod.fst ++ names) [] [] none := ⟨rfl, rfl, rfl, rfl, rfl, rfl⟩
  obtain ⟨c, hc, told⟩ := receiveAll_node node resolved start
  have whole : b = (c.insert (node.document [])).receive last .documentEnd := by
    unfold b
    rw [List.cons_append, receiveAll_cons, List.cons_append, receiveAll_cons, receiveAll_append]
    exact congrArg (·.receive last .documentEnd) told
  have done := (hc.insert_root (node.document [])).closeBlock last
  rw [whole]
  exact ⟨done.stack, done.error, done.root, done.names⟩

/-- A name is declared for a sequence that is a key, and again for a number. The last entry repeats the
number and the sequence, under one name and with the type of the number. -/
def declaredAgain : Node :=
  .mapping 0 6 (some "top")
    [(.sequence 0 1 (some "x") [.scalar 0 none "a" .plain, .alias 0 1],
      .mapping 2 4 none [(.scalar 2 none "port" .plain, .scalar 3 (some "x") "80" .plain)]),
     (.alias 4 3, .alias 5 2)]

theorem receiveAll_declaredAgain :
    declaredAgain.resolved [] ∧
      (({ names := ["top", "x", "x"] } : Assembly).receiveAll
        ((0, .streamStart) :: (0, .documentStart) :: declaredAgain.events [] ++ [(6, .documentEnd)])).root =
      some (.mapping 0 (some "top")
        [(.sequence 0 (some "x") [.scalar 0 none "a" true, .alias 0 "top" .object],
          .mapping 2 none [(.scalar 2 none "port" true, .scalar 3 (some "x") "80" true)]),
         (.alias 4 "x" .number, .alias 5 "x" .number)]) := by
  have resolved : declaredAgain.resolved [] := by decide
  have told := (receiveAll_document declaredAgain [] 0 0 6 resolved).2.2.1
  exact ⟨resolved, told⟩

end Assembly

end LayeredConfig.Yaml
