import LayeredConfig.Proofs.Yaml.Tellings

/-!
# Documents tell what their text tells

The automaton and the assembly are followed side by side (`Follows`). Both have the same slots, the frames
of the assembly tell what the steps of the automaton told, and every number that the automaton gave has the
name of the anchor token that it was given for. An event keeps this (`Follows.receive`), and so does a run:
the document tells what its text tells (`tellings_of_readDocument`).
-/

namespace LayeredConfig.Yaml

/-! ## The assembly -/

/-- What an open collection waits for. -/
def Frame.slot : Frame → Slot
  | .mapping _ _ _ none => .key
  | .mapping _ _ _ (some _) => .value
  | .sequence .. => .item

/-- What an open collection tells so far. -/
def Frame.tellings : Frame → List Telling
  | .mapping _ anchor entries key =>
    (anchorMarkers anchor, .mappingStart) :: (Document.entryTellings entries.reverse ++ key.elim [] Document.tellings)
  | .sequence _ anchor items => (anchorMarkers anchor, .sequenceStart) :: Document.itemTellings items.reverse

namespace Frame

variable {f : Frame}

theorem slot_add (f : Frame) (d : Document) : (f.add d).slot = f.slot.turn := by
  rcases f with ⟨line, anchor, entries, - | key⟩ | ⟨line, anchor, items⟩ <;> rfl

theorem tellings_add (f : Frame) (d : Document) : (f.add d).tellings = f.tellings ++ d.tellings := by
  rcases f with ⟨line, anchor, entries, - | key⟩ | ⟨line, anchor, items⟩ <;>
    simp [add, tellings, Document.entryTellings_append, Document.itemTellings_append, Document.entryTellings,
      Document.itemTellings]

theorem tellings_close_of_key (h : f.slot = .key) : f.close.tellings = f.tellings ++ [([], .mappingEnd)] := by
  rcases f with ⟨line, anchor, entries, - | key⟩ | ⟨line, anchor, items⟩
  · simp [close, tellings, Document.tellings]
  · cases h
  · cases h

theorem tellings_close_of_item (h : f.slot = .item) : f.close.tellings = f.tellings ++ [([], .sequenceEnd)] := by
  rcases f with ⟨line, anchor, entries, - | key⟩ | ⟨line, anchor, items⟩
  · cases h
  · cases h
  · simp [close, tellings, Document.tellings]

theorem slot_inner (f : Frame) : f.slot ≠ .whole ∧ f.slot ≠ .done := by
  rcases f with ⟨line, anchor, entries, - | key⟩ | ⟨line, anchor, items⟩ <;> exact ⟨nofun, nofun⟩

end Frame

namespace Assembly

variable {b : Assembly}

/-- What an assembly waits for, innermost first. -/
def slots (b : Assembly) : List Slot := b.stack.map Frame.slot ++ [if b.root.isNone then .whole else .done]

/-- What an assembly tells so far. -/
def tellings (b : Assembly) : List Telling :=
  b.root.elim [] Document.tellings ++ b.stack.reverse.flatMap Frame.tellings

theorem bottomed_slots (b : Assembly) : Bottomed b.slots := by
  refine ⟨_, _, rfl, ?_⟩
  cases b.root
  · exact .inl rfl
  · exact .inr rfl

/-- One more node. -/
theorem insert_turns {s : Slot} {others : List Slot} (slots : b.slots = s :: others) (live : s ≠ .done)
    (d : Document) : (b.insert d).slots = s.turn :: others ∧ (b.insert d).tellings = b.tellings ++ d.tellings := by
  obtain ⟨names, anchors, types, stack, root, blocks, openBlock, error⟩ := b
  cases stack with
  | nil =>
    cases root with
    | none =>
      cases slots
      exact ⟨rfl, by simp [insert, tellings]⟩
    | some r =>
      cases slots
      exact absurd rfl live
  | cons f frames =>
    cases slots
    refine ⟨?_, ?_⟩
    · simp [insert, Assembly.slots, Frame.slot_add]
    · simp [insert, tellings, Frame.tellings_add]

/-- One more open collection. -/
theorem open_turns (b : Assembly) (f : Frame) :
    { b with stack := f :: b.stack }.slots = f.slot :: b.slots ∧
      { b with stack := f :: b.stack }.tellings = b.tellings ++ f.tellings :=
  ⟨rfl, by simp [tellings]⟩

/-- The innermost collection ends. -/
theorem close_turns {slot s : Slot} {others : List Slot} (slots : b.slots = slot :: s :: others) (live : s ≠ .done) :
    ∃ f frames, b.stack = f :: frames ∧ f.slot = slot ∧
      ({ b with stack := frames }.insert f.close).slots = s.turn :: others ∧
      ({ b with stack := frames }.insert f.close).tellings =
        { b with stack := frames }.tellings ++ f.close.tellings := by
  obtain ⟨names, anchors, types, stack, root, blocks, openBlock, error⟩ := b
  cases stack with
  | nil => cases slots
  | cons f frames =>
    obtain ⟨here, below⟩ := List.cons.inj slots
    exact ⟨f, frames, rfl, here,
      insert_turns (b := ⟨names, anchors, types, frames, root, blocks, openBlock, error⟩) below live f.close⟩

end Assembly

/-! ## Automaton and assembly -/

/-- The name of a marker that is an anchor. -/
def Marker.anchorName? : Marker → Option String
  | .anchor name => some name
  | .alias _ => none

theorem anchorNames_eq (ts : List Token) : anchorNames ts = (markersOf ts).filterMap Marker.anchorName? := by
  rw [anchorNames, markersOf, List.filterMap_filterMap]
  refine List.filterMap_congr fun t _ => ?_
  cases t.kind <;> rfl

theorem anchorNames_append (ts ts' : List Token) : anchorNames (ts ++ ts') = anchorNames ts ++ anchorNames ts' :=
  List.filterMap_append

/-- The assembly knows the names of the numbers given so far, those to come are those of the tokens to
come, and no number to come is known. -/
structure Knows (tokens : List Token) (numbering : Numbering) (b : Assembly) : Prop where
  names : b.names = anchorNames tokens
  fresh : ∀ n, numbering.2 ≤ n → b.anchors.lookup n = none
  positive : 0 < numbering.2
  known : ∀ name n, numbering.1.lookup name = some n → b.anchors.lookup n = some name

/-- A node gets the name of the anchor that stands before it. -/
theorem Knows.declare {b : Assembly} {ts rest : List Token} {x x' : Numbering} {e : Event} {n : Nat}
    (h : Knows (ts ++ rest) x b) (numbers : e.Numbers x (markersOf ts) x') (number : e.number? = some n)
    (type : ValueType) :
    ∃ anchor b', b.declare n type = (anchor, b') ∧ markersOf ts = anchorMarkers anchor ∧ Knows rest x' b' ∧
      b'.stack = b.stack ∧ b'.root = b.root := by
  have names := h.names
  rw [anchorNames_append, anchorNames_eq ts] at names
  generalize markersOf ts = ms at numbers names
  cases numbers with
  | unmarked zero =>
    obtain rfl : 0 = n := Option.some.inj (zero.symm.trans number)
    exact ⟨none, b, by simp [Assembly.declare], rfl, ⟨names, h.fresh, h.positive, h.known⟩, rfl, rfl⟩
  | @anchored _ anchors next name here =>
    obtain rfl : next = n := Option.some.inj (here.symm.trans number)
    have unknown := h.fresh next (Nat.le_refl _)
    have some : next ≠ 0 := Nat.ne_of_gt h.positive
    refine ⟨name,
      { b with
        names := anchorNames rest, anchors := (next, name) :: b.anchors, types := (name, type) :: b.types },
      ?_, rfl, ⟨rfl, fun n above => ?_, Nat.succ_pos _, fun name' n found => ?_⟩, rfl, rfl⟩
    · simp only [Assembly.declare, some, if_false, unknown, names]
      rfl
    · rw [List.lookup_cons, beq_false_of_ne (by show n ≠ next; simp only at above; omega)]
      exact h.fresh n (by simp only at above ⊢; omega)
    · rw [List.lookup_cons] at found ⊢
      split at found
      · rename_i same
        cases found
        simp [eq_of_beq same]
      · have before := h.known name' n found
        have other : n ≠ next := by
          rintro rfl
          rw [unknown] at before
          cases before
        rw [beq_false_of_ne other]
        exact before
  | repeats found => cases number

/-- An automaton and an assembly on their way, with what they have told so far. -/
structure Follows (a : Automaton) (b : Assembly) (told : List Telling) : Prop where
  knows : Knows a.tokens a.numbering b
  slots : b.slots = a.slots
  told : b.tellings = told
  fine : a.Fine

theorem ofNodes_of_ne {ms : List Marker} {sign : Sign} (h : sign ≠ .boundary) :
    ofNodes [(ms, sign)] = [(ms, sign)] := by
  simp [ofNodes, h]

variable {a a' : Automaton} {b b' : Assembly} {m : Mark} {e : Event} {ms : List Marker} {told : List Telling}

theorem Assembly.same_of_stack (stack : b'.stack = b.stack) (root : b'.root = b.root) :
    b'.slots = b.slots ∧ b'.tellings = b.tellings := by
  simp only [slots, tellings, stack, root, and_self]

/-- Blocks have nothing to do with what is told. -/
theorem Follows.blocks (h : Follows a b told) (blocks : List BlockRange) (openBlock : Option Nat) :
    Follows a { b with blocks, openBlock } told :=
  ⟨⟨h.knows.names, h.knows.fresh, h.knows.positive, h.knows.known⟩, h.slots, h.told, h.fine⟩

theorem Follows.closeBlock (h : Follows a b told) (line : Nat) : Follows a (b.closeBlock line) told := by
  unfold Assembly.closeBlock
  split
  · exact h
  · exact h.blocks _ _

/-- A node that an event tells with its anchor. -/
theorem Follows.declare {n : Nat} (h : Follows a b told) (takes : a.Takes a.slots e ms a') (number : e.number? = some n)
    (type : ValueType) : ∃ anchor b', b.declare n type = (anchor, b') ∧ ms = anchorMarkers anchor ∧
      Knows a'.tokens a'.numbering b' ∧ b'.slots = a.slots ∧ b'.tellings = told := by
  obtain ⟨ts, tokens, rfl⟩ := takes.taken
  have knows := tokens ▸ h.knows
  obtain ⟨anchor, b', declared, markers, knows, stack, root⟩ := knows.declare takes.numbers number type
  obtain ⟨slots, tells⟩ := Assembly.same_of_stack stack root
  exact ⟨anchor, b', declared, markers, knows, slots.trans h.slots, tells.trans h.told⟩

/-- What is known stays known where only collections change. -/
theorem Knows.insert {tokens : List Token} {x : Numbering} (h : Knows tokens x b) (d : Document) :
    Knows tokens x (b.insert d) := by
  unfold Assembly.insert
  split <;> exact ⟨h.names, h.fresh, h.positive, h.known⟩

/-- An event that takes no marker. -/
theorem Follows.unmarked (h : Follows a b told) (takes : a.Takes a.slots e ms a') (zero : e.number? = some 0) :
    ms = [] ∧ Knows a'.tokens a'.numbering b := by
  obtain ⟨anchor, b', declared, markers, knows, -, -⟩ := h.declare takes zero .object
  rw [Assembly.declare, if_pos rfl] at declared
  cases declared
  exact ⟨markers, knows⟩

/-- A scalar is one more node, with the anchor that stands before it. -/
theorem Follows.scalar {text : String} {style : Style} {n : Nat} (h : Follows a b told)
    (takes : a.Takes a.slots (.scalar text style n) ms a') (line : Nat) (type : ValueType) :
    Follows a' ((b.declare n type).2.insert (.scalar line (b.declare n type).1 text (style = .plain)))
      (told ++ [(ms, .scalar text (style = .plain))]) := by
  obtain ⟨anchor, b', declared, rfl, knows, slots, rfl⟩ := h.declare takes rfl type
  rw [declared]
  have turns := takes.turns
  rw [← slots] at turns
  generalize before : b'.slots = open_ at turns
  generalize after : a'.slots = open' at turns
  cases turns with
  | scalar live =>
    obtain ⟨turned, tells⟩ := Assembly.insert_turns before live (.scalar line anchor text (style = .plain))
    exact ⟨knows.insert _, turned.trans after.symm, tells, takes.fine⟩

/-- A collection that begins is open, with the anchor that stands before it. -/
theorem Follows.opened {n : Nat} {slot : Slot} {sign : Sign} {f : Option String → Frame} (h : Follows a b told)
    (takes : a.Takes a.slots e ms a') (number : e.number? = some n) (slots : a'.slots = slot :: a.slots)
    (waits : ∀ anchor, (f anchor).slot = slot)
    (tells : ∀ anchor, (f anchor).tellings = [(anchorMarkers anchor, sign)]) (type : ValueType) :
    Follows a' { (b.declare n type).2 with stack := f (b.declare n type).1 :: (b.declare n type).2.stack }
      (told ++ [(ms, sign)]) := by
  obtain ⟨anchor, b', declared, rfl, knows, slots', rfl⟩ := h.declare takes number type
  rw [declared]
  obtain ⟨turned, more⟩ := b'.open_turns (f anchor)
  refine ⟨⟨knows.names, knows.fresh, knows.positive, knows.known⟩, ?_, ?_, takes.fine⟩
  · rw [turned, waits, slots, slots']
  · rw [more, tells]

/-- A collection that ends becomes a node of the one around it. -/
theorem Follows.closed {slot s : Slot} {others : List Slot} {sign : Sign} (h : Follows a b told)
    (takes : a.Takes a.slots e ms a') (zero : e.number? = some 0) (before : a.slots = slot :: s :: others)
    (live : s ≠ .done) (after : a'.slots = s.turn :: others)
    (tells : ∀ f : Frame, f.slot = slot → f.close.tellings = f.tellings ++ [([], sign)]) :
    ∃ f frames, b.stack = f :: frames ∧
      Follows a' ({ b with stack := frames }.insert f.close) (told ++ [(ms, sign)]) := by
  obtain ⟨rfl, knows⟩ := h.unmarked takes zero
  obtain ⟨f, frames, stack, here, turned, more⟩ := Assembly.close_turns (h.slots.trans before) live
  refine ⟨f, frames, stack, ?_, turned.trans after.symm, ?_, takes.fine⟩
  · exact Knows.insert (b := { b with stack := frames }) ⟨knows.names, knows.fresh, knows.positive, knows.known⟩ _
  · rw [more, tells f here, ← List.append_assoc, ← h.told]
    congr 1
    simp [Assembly.tellings, stack]

/-- An alias has the name that its number was given for. -/
theorem Follows.alias {n : Nat} {s : Slot} {others : List Slot} (h : Follows a b told)
    (takes : a.Takes a.slots (.alias n) ms a') (before : a.slots = s :: others) (live : s ≠ .done)
    (after : a'.slots = s.turn :: others) :
    ∃ name, b.anchors.lookup n = some name ∧ ∀ line type,
      Follows a' (b.insert (.alias line name type)) (told ++ [(ms, .alias)]) := by
  obtain ⟨ts, tokens, told'⟩ := takes.taken
  have numbers := takes.numbers
  obtain ⟨names, fresh, positive, known⟩ := h.knows
  rw [tokens, anchorNames_append, anchorNames_eq ts, told'] at names
  generalize same : a'.numbering = x' at numbers
  cases numbers with
  | unmarked zero => cases zero
  | anchored number => cases number
  | @repeats _ _ name found =>
    refine ⟨name, known name n found, fun line type => ?_⟩
    obtain ⟨turned, tells⟩ := Assembly.insert_turns (h.slots.trans before) live (.alias line name type)
    refine ⟨.insert ?_ _, turned.trans after.symm, tells.trans (by rw [h.told]; rfl), takes.fine⟩
    rw [same]
    exact ⟨names, fresh, positive, known⟩

/-- **An event.** The assembly receives what the automaton has taken. -/
theorem Follows.receive (h : Follows a b told) (takes : a.Takes a.slots e ms a')
    (goesOn : e ≠ .streamEnd ∧ e ≠ .documentEnd) (line : Nat) :
    Follows a' (b.receive line e) (told ++ ofNodes [(ms, e.sign)]) := by
  replace h := h.closeBlock line
  unfold Assembly.receive
  generalize b.closeBlock line = b at h ⊢
  have turns := takes.turns
  generalize before : a.slots = slots at turns
  generalize after : a'.slots = slots' at turns
  cases turns with
  | streamEnd => exact absurd rfl goesOn.1
  | documentEnd => exact absurd rfl goesOn.2
  | streamStart | documentStart =>
    obtain ⟨rfl, knows⟩ := h.unmarked takes rfl
    exact ⟨knows, (h.slots.trans before).trans after.symm, h.told.trans (List.append_nil _).symm, takes.fine⟩
  | «alias» live =>
    rw [ofNodes_of_ne (by rw [Event.sign]; exact Sign.noConfusion)]
    obtain ⟨name, known, next⟩ := h.alias takes before live after
    dsimp only
    rw [known]
    exact next line _
  | @scalar text style n s others live =>
    have opened :
        Follows a (if style = .literal ∨ style = .folded then { b with openBlock := some line } else b) told := by
      split
      · exact h.blocks _ _
      · exact h
    rw [ofNodes_of_ne (by rw [Event.sign]; exact Sign.noConfusion)]
    exact opened.scalar takes line _
  | sequenceStart =>
    rw [ofNodes_of_ne (by rw [Event.sign]; exact Sign.noConfusion)]
    exact h.opened (f := fun anchor => .sequence line anchor []) takes rfl (by rw [after, before]) (fun _ => rfl)
      (fun _ => rfl) .array
  | mappingStart =>
    rw [ofNodes_of_ne (by rw [Event.sign]; exact Sign.noConfusion)]
    exact h.opened (f := fun anchor => .mapping line anchor [] none) takes rfl (by rw [after, before]) (fun _ => rfl)
      (fun _ => rfl) .object
  | sequenceEnd live =>
    rw [ofNodes_of_ne (by rw [Event.sign]; exact Sign.noConfusion)]
    obtain ⟨f, frames, stack, next⟩ := h.closed takes rfl before live after fun f => f.tellings_close_of_item
    dsimp only
    rw [stack]
    exact next
  | mappingEnd live =>
    rw [ofNodes_of_ne (by rw [Event.sign]; exact Sign.noConfusion)]
    obtain ⟨f, frames, stack, next⟩ := h.closed takes rfl before live after fun f => f.tellings_close_of_key
    dsimp only
    rw [stack]
    exact next

/-! ## Runs -/

theorem ofNodes_cons (t : Telling) (ts : List Telling) : ofNodes (t :: ts) = ofNodes [t] ++ ofNodes ts :=
  List.filter_append [t] ts

/-- The markers that a step takes are among the tokens before those that are left. -/
theorem Automaton.Takes.markers (takes : a.Takes a.slots e ms a') :
    markersOf (a.tokens.take (a.tokens.length - a'.tokens.length)) = ms := by
  obtain ⟨ts, tokens, rfl⟩ := takes.taken
  rw [tokens, List.length_append, Nat.add_sub_cancel, List.take_left]

/-- Where nothing more is waited for the document is all that was told. -/
theorem Follows.done {others : List Slot} {d : Document} (h : Follows a b told) (done : a.slots = .done :: others)
    (root : b.root = some d) : told = d.tellings := by
  have slots := h.slots.trans done
  rw [← h.told, Assembly.tellings, root]
  cases stack : b.stack with
  | nil => simp
  | cons f frames =>
    rw [Assembly.slots, stack] at slots
    exact absurd (List.cons.inj slots).1 f.slot_inner.2

/-- While a document is waited for there is none. -/
theorem Follows.root_eq_none {others : List Slot} (h : Follows a b told) (whole : a.slots = .whole :: others) :
    b.root = none := by
  have slots := h.slots.trans whole
  cases root : b.root with
  | none => rfl
  | some d =>
    rw [Assembly.slots, root] at slots
    cases stack : b.stack with
    | nil =>
      rw [stack] at slots
      cases slots
    | cons f frames =>
      rw [stack] at slots
      exact absurd (List.cons.inj slots).1 f.slot_inner.1

/-- A step that does not end the run. -/
theorem Automaton.run_succ (step : a.step = some ((m, e), a')) (goesOn : e ≠ .streamEnd ∧ e ≠ .documentEnd)
    (fuel : Nat) : a.run (fuel + 1) = (a'.run fuel).map ((m, e) :: ·) ∧
      a.tellings (fuel + 1) =
        (markersOf (a.tokens.take (a.tokens.length - a'.tokens.length)), e.sign) :: a'.tellings fuel := by
  rw [run, tellings, step]
  cases e <;> first | exact ⟨rfl, rfl⟩ | exact absurd rfl goesOn.1 | exact absurd rfl goesOn.2

/-- The step that ends the run. -/
theorem Automaton.run_last (step : a.step = some ((m, e), a')) (last : e = .streamEnd ∨ e = .documentEnd)
    (fuel : Nat) : a.run (fuel + 1) = some [(m, e)] ∧
      a.tellings (fuel + 1) = [(markersOf (a.tokens.take (a.tokens.length - a'.tokens.length)), e.sign)] := by
  rw [run, tellings, step]
  rcases last with rfl | rfl <;> exact ⟨rfl, rfl⟩

/-- **The last event.** It tells nothing, and the document is all that was told. -/
theorem Follows.last {d : Document} {line : Nat} (h : Follows a b told) (takes : a.Takes a.slots e ms a')
    (last : e = .streamEnd ∨ e = .documentEnd) (root : (b.receive line e).root = some d) :
    told ++ ofNodes [(ms, e.sign)] = d.tellings := by
  have closed := h.closeBlock line
  have turns := takes.turns
  generalize before : a.slots = slots at turns
  generalize a'.slots = slots' at turns
  rcases last with rfl | rfl
  · cases turns
    cases (closed.root_eq_none before).symm.trans root
  · obtain ⟨rfl, -⟩ := h.unmarked takes rfl
    cases turns
    exact (List.append_nil told).trans (closed.done before root)

/-- **A run.** What its steps tell, added to what was told before, is what the document tells. -/
theorem Follows.run {fuel : Nat} {events : List (Mark × Event)} {d : Document} {cs : List Char} (h : Follows a b told)
    (run : a.run fuel = some events)
    (root : (b.receiveAll (events.map fun p => (lineOf cs p.1, p.2))).root = some d) :
    told ++ ofNodes (a.tellings fuel) = d.tellings := by
  induction fuel generalizing a b told events with
  | zero => cases run
  | succ fuel ih =>
    cases step : a.step with
    | none =>
      rw [Automaton.run, step] at run
      cases run
    | some r =>
      obtain ⟨⟨m, e⟩, a'⟩ := r
      obtain ⟨ms, takes⟩ := Automaton.step_takes step h.fine (h.slots ▸ b.bottomed_slots)
      by_cases last : e = .streamEnd ∨ e = .documentEnd
      · obtain ⟨once, tells⟩ := Automaton.run_last step last fuel
        cases once.symm.trans run
        rw [tells, takes.markers]
        exact h.last takes last root
      · obtain ⟨on, tells⟩ := Automaton.run_succ step (not_or.1 last) fuel
        obtain ⟨events, run', rfl⟩ := Option.map_eq_some_iff.1 (on.symm.trans run)
        rw [tells, takes.markers, ofNodes_cons, ← List.append_assoc]
        exact ih (h.receive takes (not_or.1 last) _) run' root

/-- Before the first step nothing is told. -/
theorem follows_start (tokens : List Token) :
    Follows { tokens } { names := anchorNames tokens } [] :=
  ⟨⟨rfl, fun _ _ => rfl, Nat.one_pos, nofun⟩, rfl, rfl, nofun, nofun⟩

/-- **Documents.** Whatever text is read, its document tells what the tokens tell: every marker of the text is on
the node at which it stands. -/
theorem tellings_of_readDocument {text : String} {d : Document} {source : Source}
    (read : readDocument text = .ok (some d, source)) : tellingsOf (tokensOf text) = d.tellings := by
  unfold readDocument at read
  dsimp only at read
  split at read
  · cases read
  · rename_i events run
    split at read
    · cases read
    · exact (follows_start (tokensOf text)).run run (Prod.mk.inj (Except.ok.inj read)).1

end LayeredConfig.Yaml
