import LayeredConfig.Proofs.Yaml.Parsed
import Mathlib.Data.List.TakeWhile

/-!
# What a text tells of its nodes

Each step of the automaton takes some tokens and tells one event. The anchors and aliases among these
tokens, its markers, stand at the node that the event begins. So a text tells markers and signs
(`tellingsOf`), and so does a document: its nodes one after the other, each with the markers that it has
(`Document.tellings`).

What an open collection waits for is its `Slot`. The slots that an automaton has open are those of what it
expects and of what it expects later. A step takes the markers that its numbers are told for and changes the
slots as its event says (`Automaton.step_takes`).
-/

namespace LayeredConfig.Yaml

/-! ## Markers and signs -/

/-- A marker of a node. -/
inductive Marker where
  | anchor (name : String)
  | alias (name : String)
  deriving DecidableEq, Repr

/-- The marker that a token is. -/
def TokenKind.marker? : TokenKind → Option Marker
  | .anchor name => some (.anchor name)
  | .alias name => some (.alias name)
  | _ => none

/-- The markers among some tokens. -/
def markersOf (tokens : List Token) : List Marker := tokens.filterMap (·.kind.marker?)

/-- What an event says beside anchors and their numbers. -/
inductive Sign where
  | scalar (text : String) (plain : Bool)
  | alias
  | mappingStart
  | mappingEnd
  | sequenceStart
  | sequenceEnd
  | boundary
  deriving DecidableEq, Repr

/-- The sign of an event. The bounds of the text and of a document are told apart from nothing else. -/
def Event.sign : Event → Sign
  | .scalar text style _ => .scalar text (style = .plain)
  | .alias _ => .alias
  | .mappingStart _ => .mappingStart
  | .mappingEnd => .mappingEnd
  | .sequenceStart _ => .sequenceStart
  | .sequenceEnd => .sequenceEnd
  | _ => .boundary

/-- Markers and the sign that they are told with. -/
abbrev Telling := List Marker × Sign

/-- What the steps of an automaton tell: the markers among the tokens that each of them takes, and the
sign of its event. -/
def Automaton.tellings : Nat → Automaton → List Telling
  | 0, _ => []
  | fuel + 1, a =>
    match a.step with
    | none => []
    | some ((_, e), a') =>
      (markersOf (a.tokens.take (a.tokens.length - a'.tokens.length)), e.sign) ::
        match e with
        | .streamEnd | .documentEnd => []
        | _ => a'.tellings fuel

/-- What is told of nodes: all but the bounds at which no marker stands. -/
def ofNodes (tellings : List Telling) : List Telling := tellings.filter (· ≠ ([], .boundary))

/-- What the tokens of a text tell of its nodes. -/
def tellingsOf (tokens : List Token) : List Telling :=
  ofNodes (Automaton.tellings (4 * tokens.length + 4) { tokens })

/-- The marker for an anchor, if there is one. -/
def anchorMarkers (anchor : Option String) : List Marker := anchor.toList.map .anchor

namespace Document

mutual

/-- What a document tells: its nodes one after the other, keys as well as values, each with its markers. -/
def tellings : Document → List Telling
  | .scalar _ anchor text plain => [(anchorMarkers anchor, .scalar text plain)]
  | .alias _ name _ => [([.alias name], .alias)]
  | .mapping _ anchor entries =>
    (anchorMarkers anchor, .mappingStart) :: (entryTellings entries ++ [([], .mappingEnd)])
  | .sequence _ anchor items =>
    (anchorMarkers anchor, .sequenceStart) :: (itemTellings items ++ [([], .sequenceEnd)])

/-- What the entries of a mapping tell. -/
def entryTellings : List (Document × Document) → List Telling
  | [] => []
  | (key, value) :: entries => key.tellings ++ (value.tellings ++ entryTellings entries)

/-- What the items of a sequence tell. -/
def itemTellings : List Document → List Telling
  | [] => []
  | item :: items => item.tellings ++ itemTellings items

end

theorem entryTellings_append (entries entries' : List (Document × Document)) :
    entryTellings (entries ++ entries') = entryTellings entries ++ entryTellings entries' := by
  induction entries with
  | nil => rfl
  | cons e entries ih => rw [List.cons_append, entryTellings, entryTellings, ih, List.append_assoc, List.append_assoc]

theorem itemTellings_append (items items' : List Document) :
    itemTellings (items ++ items') = itemTellings items ++ itemTellings items' := by
  induction items with
  | nil => rfl
  | cons d items ih => rw [List.cons_append, itemTellings, itemTellings, ih, List.append_assoc]

end Document

/-! ## Slots -/

/-- What is waited for: the key or the value of an entry, an item, or the document as a whole. -/
inductive Slot where
  | key
  | value
  | item
  | whole
  | done
  deriving DecidableEq, Repr

/-- What is waited for after one more node. -/
def Slot.turn : Slot → Slot
  | .key => .value
  | .value => .key
  | .item => .item
  | .whole => .done
  | .done => .whole

@[simp]
theorem Slot.turn_turn (s : Slot) : s.turn.turn = s := by cases s <;> rfl

/-- The slots of the collections that are open where something is expected, innermost first. A mapping of
a single pair is open inside the sequence that it is an item of. -/
def Expectation.slots : Expectation → List Slot
  | .streamStart | .implicitDocumentStart | .documentStart => [.whole]
  | .documentContent | .blockNode => []
  | .documentEnd => [.done]
  | .blockSequenceEntry _ | .indentlessSequenceEntry | .flowSequenceEntry _ => [.item]
  | .blockMappingKey _ | .flowMappingKey _ => [.key]
  | .blockMappingValue | .flowMappingValue | .flowMappingEmptyValue => [.value]
  | .pairKey | .pairEnd _ => [.key, .item]
  | .pairValue => [.value, .item]

/-- The slots where something is expected after one more node. -/
def Expectation.before (s : Expectation) : List Slot := s.slots.modifyHead Slot.turn

/-- The slots of what is expected later. -/
def slotsLater (stack : List Expectation) : List Slot := stack.flatMap Expectation.before

/-- The slots of the collections that an automaton has open. -/
def Automaton.slots (a : Automaton) : List Slot := a.state.slots ++ slotsLater a.stack

/-- Whether something may be expected after a node. -/
def Expectation.comesAfter : Expectation → Bool
  | .documentEnd | .blockSequenceEntry false | .indentlessSequenceEntry | .blockMappingKey false | .blockMappingValue
  | .flowSequenceEntry false | .pairValue | .pairEnd _ | .flowMappingKey false | .flowMappingValue
  | .flowMappingEmptyValue => true
  | _ => false

theorem Expectation.slots_of_comesAfter {s : Expectation} (h : s.comesAfter) :
    ∃ slot others, slot ≠ .done ∧ s.before = slot :: others ∧ s.slots = slot.turn :: others := by
  cases s <;> first | exact ⟨_, _, Slot.noConfusion, rfl, rfl⟩ | cases h

theorem Expectation.isFirst_of_comesAfter {s : Expectation} (h : s.comesAfter) : s.isFirst = false := by
  cases s <;> first | rfl | cases h | (rename_i first; cases first <;> first | rfl | cases h)

/-- Slots with that of a document below them. -/
def Bottomed (slots : List Slot) : Prop := ∃ upper s, slots = upper ++ [s] ∧ (s = .whole ∨ s = .done)

/-! ## Steps of the automaton -/

/-- How an event changes what is waited for. -/
inductive Event.Turns : Event → List Slot → List Slot → Prop
  | streamStart {slots : List Slot} : Turns .streamStart slots slots
  | streamEnd {others slots : List Slot} : Turns .streamEnd (.whole :: others) slots
  | documentStart {slots : List Slot} : Turns .documentStart slots slots
  | documentEnd {others slots : List Slot} : Turns .documentEnd (.done :: others) slots
  | alias {n : Nat} {s : Slot} {others : List Slot} (live : s ≠ .done) :
    Turns (.alias n) (s :: others) (s.turn :: others)
  | scalar {text : String} {style : Style} {n : Nat} {s : Slot} {others : List Slot} (live : s ≠ .done) :
    Turns (.scalar text style n) (s :: others) (s.turn :: others)
  | sequenceStart {n : Nat} {slots : List Slot} : Turns (.sequenceStart n) slots (.item :: slots)
  | sequenceEnd {s : Slot} {others : List Slot} (live : s ≠ .done) :
    Turns .sequenceEnd (.item :: s :: others) (s.turn :: others)
  | mappingStart {n : Nat} {slots : List Slot} : Turns (.mappingStart n) slots (.key :: slots)
  | mappingEnd {s : Slot} {others : List Slot} (live : s ≠ .done) :
    Turns .mappingEnd (.key :: s :: others) (s.turn :: others)

/-- The number that an event declares, zero for none. An alias declares nothing. -/
def Event.number? : Event → Option Nat
  | .alias _ => none
  | .scalar _ _ n | .mappingStart n | .sequenceStart n => some n
  | _ => some 0

/-- The anchors with their numbers, the latest first, and the number of the next one. -/
abbrev Numbering := List (String × Nat) × Nat

/-- The anchors of an automaton. -/
def Automaton.numbering (a : Automaton) : Numbering := (a.anchors, a.nextAnchor)

/-- What the numbers of an event have to do with the markers that are told with it. -/
inductive Event.Numbers : Event → Numbering → List Marker → Numbering → Prop
  | unmarked {e : Event} {known : Numbering} (zero : e.number? = some 0) : Numbers e known [] known
  | anchored {e : Event} {anchors : List (String × Nat)} {next : Nat} {name : String}
    (number : e.number? = some next) : Numbers e (anchors, next) [.anchor name] ((name, next) :: anchors, next + 1)
  | repeats {n : Nat} {known : Numbering} {name : String} (found : known.1.lookup name = some n) :
    Numbers (.alias n) known [.alias name] known

/-- Whether an automaton may be on its way: what it expects later comes after a node, and a collection
that has begun begins with a token that is no marker. -/
structure Automaton.Fine (a : Automaton) : Prop where
  later : ∀ s ∈ a.stack, s.comesAfter
  first : a.state.isFirst → markersOf (a.tokens.take 1) = []

/-- What a step of an automaton does that tells an event where some slots are open: with the markers it
takes come the event's numbers, the event changes the slots, and the automaton goes on its way. -/
structure Automaton.Takes (a : Automaton) (slots : List Slot) (e : Event) (ms : List Marker) (a' : Automaton) :
    Prop where
  taken : ∃ ts, a.tokens = ts ++ a'.tokens ∧ markersOf ts = ms
  numbers : e.Numbers a.numbering ms a'.numbering
  turns : e.Turns slots a'.slots
  fine : a'.Fine

namespace Automaton

variable {a a' b : Automaton} {m : Mark} {e : Event} {ms : List Marker} {slots : List Slot} {t : Token}
  {rest ts : List Token}

theorem markersOf_append (ts ts' : List Token) : markersOf (ts ++ ts') = markersOf ts ++ markersOf ts' :=
  List.filterMap_append

theorem markersOf_cons (h : t.kind.marker? = none) (ts : List Token) : markersOf (t :: ts) = markersOf ts :=
  List.filterMap_cons_none h

/-- Tokens that are no markers may be passed over first. -/
theorem Takes.passed (h : b.Takes slots e ms a') (ts : List Token) (tokens : a.tokens = ts ++ b.tokens)
    (unmarked : markersOf ts = []) (same : b.numbering = a.numbering) : a.Takes slots e ms a' := by
  obtain ⟨ts', tokens', told⟩ := h.taken
  refine ⟨⟨ts ++ ts', ?_, ?_⟩, same ▸ h.numbers, h.turns, h.fine⟩
  · rw [tokens, List.append_assoc, ← tokens']
  · rw [markersOf_append, unmarked, told, List.nil_append]

/-- Where some slots are open inside of a document. -/
structure At (a : Automaton) (slots : List Slot) : Prop where
  here : a.state.slots = slots
  later : ∀ s ∈ a.stack, s.comesAfter
  inside : a.stack ≠ []

theorem At.eq_slots (h : a.At slots) : slots ++ slotsLater a.stack = a.slots := by rw [← h.here, Automaton.slots]

/-- Back at what is expected later, one more node has come. -/
theorem back_turns (later : ∀ s ∈ a.stack, s.comesAfter) (inside : a.stack ≠ []) :
    a.back.Fine ∧
      ∃ slot others, slot ≠ .done ∧ slotsLater a.stack = slot :: others ∧
        a.back.slots = slot.turn :: others := by
  obtain ⟨s, stack, same⟩ := List.exists_cons_of_ne_nil inside
  obtain ⟨here, later⟩ := List.forall_mem_cons.1 (same ▸ later)
  obtain ⟨slot, others, live, before, slots⟩ := Expectation.slots_of_comesAfter here
  have back : a.back = { a with state := s, stack } := by rw [Automaton.back, same]
  rw [back]
  refine ⟨⟨later, fun first => ?_⟩, slot, others ++ slotsLater stack, live, ?_, ?_⟩
  · rw [Expectation.isFirst_of_comesAfter here] at first
    cases first
  · rw [same, slotsLater, List.flatMap_cons, before]
    rfl
  · rw [Automaton.slots, slots]
    rfl

theorem tokens_back (a : Automaton) : a.back.tokens = a.tokens := by
  unfold back
  split <;> rfl

theorem numbering_back (a : Automaton) : a.back.numbering = a.numbering := by
  unfold back
  split <;> rfl

/-! ### Nodes -/

/-- Anchor and tag before a node. -/
theorem properties_numbers {n : Nat} {marked : Bool} (h : a.properties = some (n, marked, a')) :
    a'.state = a.state ∧ a'.stack = a.stack ∧ ∃ ts ms, a.tokens = ts ++ a'.tokens ∧ markersOf ts = ms ∧
      ∀ e : Event, e.number? = some n → e.Numbers a.numbering ms a'.numbering := by
  unfold properties at h
  split at h
  · rename_i m name rest tokens
    dsimp only [declare] at h
    split at h
    · rename_i m' handle rest
      split at h
      · cases h
        exact ⟨rfl, rfl, [⟨m, .anchor name⟩, ⟨m', .tag handle⟩], _, tokens, rfl, fun e => .anchored⟩
      · cases h
    · cases h
      exact ⟨rfl, rfl, [⟨m, .anchor name⟩], _, tokens, rfl, fun e => .anchored⟩
  · rename_i m handle rest tokens
    split at h
    · split at h
      · rename_i m' name rest
        cases h
        exact ⟨rfl, rfl, [⟨m, .tag handle⟩, ⟨m', .anchor name⟩], _, tokens, rfl, fun e => .anchored⟩
      · cases h
        exact ⟨rfl, rfl, [⟨m, .tag handle⟩], _, tokens, rfl, fun e => .unmarked⟩
    · cases h
  · cases h
    exact ⟨rfl, rfl, [], _, rfl, rfl, fun e => .unmarked⟩

/-- What the content of a node tells, whose number is known, with some slots open. It takes no marker. -/
structure Fills (a : Automaton) (n : Nat) (e : Event) (a' : Automaton) : Prop where
  number : e.number? = some n
  taken : ∃ ts, a.tokens = ts ++ a'.tokens ∧ markersOf ts = []
  numbering : a'.numbering = a.numbering
  turns : e.Turns (slotsLater a.stack) a'.slots
  fine : a'.Fine

/-- A scalar, written or not, with some tokens behind it. -/
theorem fills_scalar {text : String} {style : Style} {n : Nat} (ts : List Token) (tokens : a.tokens = ts ++ rest)
    (unmarked : markersOf ts = []) (later : ∀ s ∈ a.stack, s.comesAfter) (inside : a.stack ≠ []) :
    a.Fills n (.scalar text style n) { a with tokens := rest }.back := by
  obtain ⟨fine, slot, others, live, before, after⟩ := back_turns (a := { a with tokens := rest }) later inside
  refine ⟨rfl, ⟨ts, by rw [tokens_back, tokens], unmarked⟩, numbering_back _, ?_, fine⟩
  rw [before, after]
  exact .scalar live

/-- A collection that begins. Its first token is still to come. -/
theorem fills_start {n : Nat} {state : Expectation} {slot : Slot} (tokens : a.tokens = t :: rest)
    (unmarked : t.kind.marker? = none) (later : ∀ s ∈ a.stack, s.comesAfter) (slots : state.slots = [slot])
    (number : e.number? = some n) (turns : e.Turns (slotsLater a.stack) (slot :: slotsLater a.stack)) :
    a.Fills n e (a.goto state) := by
  refine ⟨number, ⟨[], rfl, rfl⟩, rfl, ?_, later, fun _ => ?_⟩
  · rw [Automaton.slots, goto, slots]
    exact turns
  · show markersOf (a.tokens.take 1) = []
    rw [tokens, List.take_succ_cons, markersOf_cons unmarked]
    rfl

theorem content_fills {block indentless marked : Bool} {n : Nat}
    (h : a.content block indentless n marked = some ((m, e), a')) (later : ∀ s ∈ a.stack, s.comesAfter)
    (inside : a.stack ≠ []) : a.Fills n e a' := by
  have absent {m' : Mark}
      (h : (if marked then some ((m', Event.missingWith n), a.back) else none) = some ((m, e), a')) :
      a.Fills n e a' := by
    obtain ⟨-, h⟩ := Option.ite_none_right_eq_some.1 h
    cases h
    exact fills_scalar [] rfl rfl later inside
  unfold content at h
  split at h
  · cases h
  · rename_i m' kind rest tokens
    dsimp only at h
    split at h
    · cases h
      exact fills_scalar [_] tokens rfl later inside
    · cases h
      exact fills_start tokens rfl later rfl rfl .sequenceStart
    · cases h
      exact fills_start tokens rfl later rfl rfl .mappingStart
    · split at h
      · cases h
        exact fills_start tokens rfl later rfl rfl .sequenceStart
      · exact absent h
    · split at h
      · cases h
        exact fills_start tokens rfl later rfl rfl .mappingStart
      · exact absent h
    · split at h
      · cases h
        exact fills_start tokens rfl later rfl rfl .sequenceStart
      · exact absent h
    · exact absent h

/-- **A node.** The markers before it are taken with the event that begins it. -/
theorem node_takes {block indentless : Bool} (h : a.node block indentless = some ((m, e), a'))
    (later : ∀ s ∈ a.stack, s.comesAfter) (inside : a.stack ≠ []) :
    ∃ ms, a.Takes (slotsLater a.stack) e ms a' := by
  unfold node at h
  split at h
  · rename_i m' name rest tokens
    obtain ⟨n, found, h⟩ := Option.map_eq_some_iff.1 h
    cases h
    obtain ⟨fine, slot, others, live, before, after⟩ := back_turns (a := { a with tokens := rest }) later inside
    refine ⟨_, ⟨[⟨m, .alias name⟩], by rw [tokens_back, tokens]; rfl, rfl⟩, ?_, ?_, fine⟩
    · rw [numbering_back]
      exact .repeats found
    · rw [before, after]
      exact .alias live
  · obtain ⟨⟨n, marked, b⟩, properties, h⟩ := Option.bind_eq_some_iff.1 h
    obtain ⟨state, stack, ts, ms, tokens, told, numbers⟩ := properties_numbers properties
    have fills := content_fills h (stack ▸ later) (stack ▸ inside)
    obtain ⟨ts', tokens', unmarked⟩ := fills.taken
    refine ⟨ms, ⟨ts ++ ts', ?_, ?_⟩, ?_, stack ▸ fills.turns, fills.fine⟩
    · rw [tokens, tokens', List.append_assoc]
    · rw [markersOf_append, unmarked, told, List.append_nil]
    · rw [fills.numbering]
      exact numbers e fills.number

/-! ### Inside of a document -/

/-- A node that is not written. -/
theorem takes_missing {state : Expectation} (at_ : a.At state.before) (comes : state.comesAfter) :
    a.Takes a.slots .missing [] (a.goto state) := by
  obtain ⟨slot, others, live, before, slots⟩ := Expectation.slots_of_comesAfter comes
  refine ⟨⟨[], rfl, rfl⟩, .unmarked rfl, ?_, at_.later, fun first => ?_⟩
  · rw [← at_.eq_slots, before, Automaton.slots, goto, slots]
    exact .scalar live
  · have never : state.isFirst = false := Expectation.isFirst_of_comesAfter comes
    exact Bool.noConfusion (never.symm.trans first)

/-- A node after which something is expected. -/
theorem nodeThen_takes {after : Expectation} {block indentless : Bool}
    (h : a.nodeThen after block indentless = some ((m, e), a')) (at_ : a.At after.before) (comes : after.comesAfter) :
    ∃ ms, a.Takes a.slots e ms a' := by
  have later : ∀ s ∈ after :: a.stack, s.comesAfter := List.forall_mem_cons.2 ⟨comes, at_.later⟩
  obtain ⟨ms, taken, numbers, turns, fine⟩ := node_takes (a := a.later after) h later (List.cons_ne_nil _ _)
  refine ⟨ms, taken, numbers, ?_, fine⟩
  rw [← at_.eq_slots]
  exact turns

/-- A collection that ends, with some tokens behind it. -/
theorem takes_end {slot : Slot} (at_ : a.At [slot]) (ts : List Token) (tokens : a.tokens = ts ++ rest)
    (unmarked : markersOf ts = [])
    (zero : e.number? = some 0)
    (ends : ∀ {s : Slot} {others : List Slot}, s ≠ .done → e.Turns (slot :: s :: others) (s.turn :: others)) :
    a.Takes a.slots e [] { a with tokens := rest }.back := by
  obtain ⟨fine, s, others, live, before, after⟩ := back_turns (a := { a with tokens := rest }) at_.later at_.inside
  refine ⟨⟨ts, by rw [tokens_back, tokens], unmarked⟩, ?_, ?_, fine⟩
  · rw [numbering_back]
    exact .unmarked zero
  · rw [← at_.eq_slots, before, after]
    exact ends live

/-- What goes on behind some tokens: a node that is not written, or one that is. -/
theorem next_takes (after : Expectation) (ts : List Token) (tokens : a.tokens = ts ++ rest)
    (unmarked : markersOf ts = [])
    (at_ : a.At after.before) (comes : after.comesAfter)
    (h : (∃ m', some ((m', Event.missing), { a with tokens := rest }.goto after) = some ((m, e), a')) ∨
      ∃ block indentless, { a with tokens := rest }.nodeThen after block indentless = some ((m, e), a')) :
    ∃ ms, a.Takes a.slots e ms a' := by
  have at' : { a with tokens := rest }.At after.before := ⟨at_.here, at_.later, at_.inside⟩
  have next : ∃ ms, { a with tokens := rest }.Takes a.slots e ms a' := by
    rcases h with ⟨m', h⟩ | ⟨block, indentless, h⟩
    · cases h
      exact ⟨_, takes_missing at' comes⟩
    · exact nodeThen_takes h at' comes
  obtain ⟨ms, next⟩ := next
  exact ⟨ms, next.passed ts tokens unmarked rfl⟩

theorem blockMappingKey_takes (h : a.blockMappingKey = some ((m, e), a')) (at_ : a.At [.key]) :
    ∃ ms, a.Takes a.slots e ms a' := by
  unfold blockMappingKey at h
  split at h
  · rename_i tokens
    split at h
    · cases h
    · exact next_takes .blockMappingValue [_] tokens rfl at_ rfl (.inl ⟨_, h⟩)
    · exact next_takes .blockMappingValue [_] tokens rfl at_ rfl (.inl ⟨_, h⟩)
    · exact next_takes .blockMappingValue [_] tokens rfl at_ rfl (.inl ⟨_, h⟩)
    · exact next_takes .blockMappingValue [_] tokens rfl at_ rfl (.inr ⟨_, _, h⟩)
  · exact next_takes .blockMappingValue [] rfl rfl at_ rfl (.inl ⟨_, h⟩)
  · rename_i tokens
    cases h
    exact ⟨_, takes_end at_ [_] tokens rfl rfl .mappingEnd⟩
  · cases h

theorem blockMappingValue_takes (h : a.blockMappingValue = some ((m, e), a')) (at_ : a.At [.value]) :
    ∃ ms, a.Takes a.slots e ms a' := by
  unfold blockMappingValue at h
  split at h
  · cases h
  · rename_i tokens
    split at h
    · cases h
    · exact next_takes (.blockMappingKey false) [_] tokens rfl at_ rfl (.inl ⟨_, h⟩)
    · exact next_takes (.blockMappingKey false) [_] tokens rfl at_ rfl (.inl ⟨_, h⟩)
    · exact next_takes (.blockMappingKey false) [_] tokens rfl at_ rfl (.inl ⟨_, h⟩)
    · exact next_takes (.blockMappingKey false) [_] tokens rfl at_ rfl (.inr ⟨_, _, h⟩)
  · exact next_takes (.blockMappingKey false) [] rfl rfl at_ rfl (.inl ⟨_, h⟩)

theorem blockSequenceEntry_takes (h : a.blockSequenceEntry = some ((m, e), a')) (at_ : a.At [.item]) :
    ∃ ms, a.Takes a.slots e ms a' := by
  unfold blockSequenceEntry at h
  split at h
  · rename_i tokens
    cases h
    exact ⟨_, takes_end at_ [_] tokens rfl rfl .sequenceEnd⟩
  · rename_i tokens
    split at h
    · cases h
    · exact next_takes (.blockSequenceEntry false) [_] tokens rfl at_ rfl (.inl ⟨_, h⟩)
    · exact next_takes (.blockSequenceEntry false) [_] tokens rfl at_ rfl (.inl ⟨_, h⟩)
    · exact next_takes (.blockSequenceEntry false) [_] tokens rfl at_ rfl (.inr ⟨_, _, h⟩)
  · cases h

theorem indentlessEntry_takes (h : a.indentlessEntry = some ((m, e), a')) (at_ : a.At [.item]) :
    ∃ ms, a.Takes a.slots e ms a' := by
  unfold indentlessEntry at h
  split at h
  · cases h
  · rename_i tokens
    split at h
    · cases h
    · exact next_takes .indentlessSequenceEntry [_] tokens rfl at_ rfl (.inl ⟨_, h⟩)
    · exact next_takes .indentlessSequenceEntry [_] tokens rfl at_ rfl (.inl ⟨_, h⟩)
    · exact next_takes .indentlessSequenceEntry [_] tokens rfl at_ rfl (.inl ⟨_, h⟩)
    · exact next_takes .indentlessSequenceEntry [_] tokens rfl at_ rfl (.inl ⟨_, h⟩)
    · exact next_takes .indentlessSequenceEntry [_] tokens rfl at_ rfl (.inr ⟨_, _, h⟩)
  · cases h
    exact ⟨_, takes_end at_ [] rfl rfl rfl .sequenceEnd⟩

theorem flowEntry_takes (h : a.flowEntry = some ((m, e), a')) (at_ : a.At [.item]) :
    ∃ ms, a.Takes a.slots e ms a' := by
  unfold flowEntry at h
  split at h
  · cases h
  · rename_i tokens
    cases h
    exact ⟨_, takes_end at_ [_] tokens rfl rfl .sequenceEnd⟩
  · rename_i tokens
    cases h
    refine ⟨_, ⟨[_], tokens, rfl⟩, .unmarked rfl, ?_, at_.later, nofun⟩
    rw [← at_.eq_slots]
    exact .mappingStart
  · exact next_takes (.flowSequenceEntry false) [] rfl rfl at_ rfl (.inr ⟨_, _, h⟩)

theorem flowSequenceEntry_takes {first : Bool} (h : a.flowSequenceEntry first = some ((m, e), a'))
    (at_ : a.At [.item]) : ∃ ms, a.Takes a.slots e ms a' := by
  unfold flowSequenceEntry at h
  split at h
  · exact flowEntry_takes h at_
  · split at h
    · exact flowEntry_takes h at_
    · rename_i tokens
      obtain ⟨ms, next⟩ := flowEntry_takes h ⟨at_.here, at_.later, at_.inside⟩
      exact ⟨ms, next.passed [_] tokens rfl rfl⟩
    · cases h

theorem pairKey_takes (h : a.pairKey = some ((m, e), a')) (at_ : a.At [.key, .item]) :
    ∃ ms, a.Takes a.slots e ms a' := by
  unfold pairKey at h
  split at h
  · cases h
  · rename_i tokens
    exact next_takes .pairValue [_] tokens rfl at_ rfl (.inl ⟨_, h⟩)
  · rename_i tokens
    exact next_takes .pairValue [_] tokens rfl at_ rfl (.inl ⟨_, h⟩)
  · rename_i tokens
    exact next_takes .pairValue [_] tokens rfl at_ rfl (.inl ⟨_, h⟩)
  · exact next_takes .pairValue [] rfl rfl at_ rfl (.inr ⟨_, _, h⟩)

theorem pairValue_takes (h : a.pairValue = some ((m, e), a')) (at_ : a.At [.value, .item]) :
    ∃ ms, a.Takes a.slots e ms a' := by
  unfold pairValue at h
  split at h
  · cases h
  · rename_i tokens
    split at h
    · cases h
    · exact next_takes (.pairEnd _) [_] tokens rfl at_ rfl (.inl ⟨_, h⟩)
    · exact next_takes (.pairEnd _) [_] tokens rfl at_ rfl (.inl ⟨_, h⟩)
    · exact next_takes (.pairEnd _) [_] tokens rfl at_ rfl (.inr ⟨_, _, h⟩)
  · exact next_takes (.pairEnd _) [] rfl rfl at_ rfl (.inl ⟨_, h⟩)

theorem flowKey_takes (h : a.flowKey = some ((m, e), a')) (at_ : a.At [.key]) :
    ∃ ms, a.Takes a.slots e ms a' := by
  unfold flowKey at h
  split at h
  · cases h
  · rename_i tokens
    split at h
    · cases h
    · exact next_takes .flowMappingValue [_] tokens rfl at_ rfl (.inl ⟨_, h⟩)
    · exact next_takes .flowMappingValue [_] tokens rfl at_ rfl (.inl ⟨_, h⟩)
    · exact next_takes .flowMappingValue [_] tokens rfl at_ rfl (.inl ⟨_, h⟩)
    · exact next_takes .flowMappingValue [_] tokens rfl at_ rfl (.inr ⟨_, _, h⟩)
  · exact next_takes .flowMappingValue [] rfl rfl at_ rfl (.inl ⟨_, h⟩)
  · rename_i tokens
    cases h
    exact ⟨_, takes_end at_ [_] tokens rfl rfl .mappingEnd⟩
  · exact next_takes .flowMappingEmptyValue [] rfl rfl at_ rfl (.inr ⟨_, _, h⟩)

theorem flowMappingKey_takes {first : Bool} (h : a.flowMappingKey first = some ((m, e), a')) (at_ : a.At [.key]) :
    ∃ ms, a.Takes a.slots e ms a' := by
  unfold flowMappingKey at h
  split at h
  · exact flowKey_takes h at_
  · split at h
    · exact flowKey_takes h at_
    · rename_i tokens
      obtain ⟨ms, next⟩ := flowKey_takes h ⟨at_.here, at_.later, at_.inside⟩
      exact ⟨ms, next.passed [_] tokens rfl rfl⟩
    · cases h

theorem flowMappingValue_takes (h : a.flowMappingValue = some ((m, e), a')) (at_ : a.At [.value]) :
    ∃ ms, a.Takes a.slots e ms a' := by
  unfold flowMappingValue at h
  split at h
  · cases h
  · rename_i tokens
    split at h
    · cases h
    · exact next_takes (.flowMappingKey false) [_] tokens rfl at_ rfl (.inl ⟨_, h⟩)
    · exact next_takes (.flowMappingKey false) [_] tokens rfl at_ rfl (.inl ⟨_, h⟩)
    · exact next_takes (.flowMappingKey false) [_] tokens rfl at_ rfl (.inr ⟨_, _, h⟩)
  · exact next_takes (.flowMappingKey false) [] rfl rfl at_ rfl (.inl ⟨_, h⟩)

/-! ### Around a document -/

theorem directives_passed {versionGiven : Bool} {tokens : List Token} (h : a.directives versionGiven tokens = some b) :
    b.state = a.state ∧ b.stack = a.stack ∧ b.numbering = a.numbering ∧
      ∃ ts, tokens = ts ++ b.tokens ∧ markersOf ts = [] := by
  induction tokens generalizing a versionGiven with
  | nil =>
    cases h
    exact ⟨rfl, rfl, rfl, [], rfl, rfl⟩
  | cons t tokens ih =>
    unfold directives at h
    split at h
    · rename_i m rest same
      cases same
      split at h
      · cases h
      · obtain ⟨state, stack, numbering, ts, passed, unmarked⟩ := ih h
        exact ⟨state, stack, numbering, ⟨m, .versionDirective⟩ :: ts, by rw [passed]; rfl, unmarked⟩
    · rename_i m handle rest same
      cases same
      obtain ⟨state, stack, numbering, ts, passed, unmarked⟩ := ih h
      exact ⟨state, stack, numbering, ⟨m, .tagDirective handle⟩ :: ts, by rw [passed]; rfl, unmarked⟩
    · cases h
      exact ⟨rfl, rfl, rfl, [], rfl, rfl⟩

/-- A document with a mark at its start. -/
theorem explicitDocument_takes (h : a.explicitDocument = some ((m, e), a')) (here : a.state.slots = [.whole])
    (later : ∀ s ∈ a.stack, s.comesAfter) : ∃ ms, a.Takes a.slots e ms a' := by
  obtain ⟨b, directives, h⟩ := Option.bind_eq_some_iff.1 h
  obtain ⟨state, stack, numbering, ts, passed, unmarked⟩ := directives_passed directives
  split at h
  · rename_i m' rest tokens
    cases h
    refine ⟨[], ⟨ts ++ [⟨m, .documentStart⟩], ?_, ?_⟩, ?_, ?_, ?_, nofun⟩
    · rw [passed, tokens, List.append_assoc]
      rfl
    · rw [markersOf_append, unmarked]
      rfl
    · rw [← numbering]
      exact .unmarked rfl
    · rw [Automaton.slots, here, ← stack]
      exact .documentStart
    · exact List.forall_mem_cons.2 ⟨rfl, stack ▸ later⟩
  · cases h

/-- The start of a document, or the end of the text. -/
theorem document_takes {implicit : Bool} (h : a.document implicit = some ((m, e), a')) (here : a.state.slots = [.whole])
    (never : a.state.isFirst = false) (later : ∀ s ∈ a.stack, s.comesAfter) : ∃ ms, a.Takes a.slots e ms a' := by
  have unmarked (tokens : List Token) : markersOf (tokens.takeWhile (·.kind = .documentEnd)) = [] :=
    List.filterMap_eq_nil_iff.2 fun t ht => by
      have kind : t.kind = .documentEnd := by simpa using List.mem_takeWhile_imp ht
      rw [kind]
      rfl
  suffices next : ∃ ms, a.skipDocumentEnds.Takes a.slots e ms a' by
    obtain ⟨ms, next⟩ := next
    exact ⟨ms, next.passed _ List.takeWhile_append_dropWhile.symm (unmarked a.tokens) rfl⟩
  unfold document at h
  dsimp only at h
  split at h
  · cases h
  · rename_i rest tokens
    cases h
    refine ⟨_, ⟨[⟨m, .streamEnd⟩], tokens, rfl⟩, .unmarked rfl, ?_, later, fun first => ?_⟩
    · rw [Automaton.slots, here]
      exact .streamEnd
    · exact Bool.noConfusion (never.symm.trans first)
  · exact explicitDocument_takes h here later
  · exact explicitDocument_takes h here later
  · exact explicitDocument_takes h here later
  · split at h
    · cases h
      refine ⟨_, ⟨[], rfl, rfl⟩, .unmarked rfl, ?_, List.forall_mem_cons.2 ⟨rfl, later⟩, nofun⟩
      rw [Automaton.slots, here]
      exact .documentStart
    · exact explicitDocument_takes h here later

theorem documentBody_takes (h : a.documentBody = some ((m, e), a')) (at_ : a.At []) :
    ∃ ms, a.Takes a.slots e ms a' := by
  have absent : a.Takes a.slots .missing [] a.back := by
    have fills : a.Fills 0 .missing a.back := fills_scalar [] rfl rfl at_.later at_.inside
    refine ⟨fills.taken, ?_, at_.eq_slots ▸ fills.turns, fills.fine⟩
    rw [← fills.numbering]
    exact .unmarked rfl
  unfold documentBody at h
  split at h
  · cases h
  · split at h
    iterate 5
      · cases h
        exact ⟨_, absent⟩
    · exact at_.eq_slots ▸ node_takes h at_.later at_.inside

theorem documentEnding_takes (h : a.documentEnding = some ((m, e), a')) (here : a.state.slots = [.done])
    (later : ∀ s ∈ a.stack, s.comesAfter) : ∃ ms, a.Takes a.slots e ms a' := by
  unfold documentEnding at h
  have ends : Event.Turns .documentEnd a.slots a'.slots := by
    rw [Automaton.slots, here]
    exact .documentEnd
  split at h
  · cases h
  · rename_i tokens
    cases h
    exact ⟨_, ⟨[_], tokens, rfl⟩, .unmarked rfl, ends, later, nofun⟩
  · cases h
  · cases h
  · cases h
    exact ⟨_, ⟨[], rfl, rfl⟩, .unmarked rfl, ends, later, nofun⟩

/-- Where a collection has begun, the token that begins it is passed over first. -/
theorem begun_takes {f : Automaton → Step} {first : Bool} {slot : Slot}
    (takes : ∀ b : Automaton, f b = some ((m, e), a') → b.At [slot] → ∃ ms, b.Takes b.slots e ms a')
    (h : f (if first then a.skip else a) = some ((m, e), a')) (fine : a.Fine) (same : a.state.isFirst = first)
    (at_ : a.At [slot]) : ∃ ms, a.Takes a.slots e ms a' := by
  cases first with
  | false => exact takes a h at_
  | true =>
    obtain ⟨ms, next⟩ := takes a.skip h ⟨at_.here, at_.later, at_.inside⟩
    exact ⟨ms, next.passed _ (List.take_append_drop 1 a.tokens).symm (fine.first same) rfl⟩

/-- **A step.** Whatever is expected, the markers among the tokens that are taken are those of the event. -/
theorem step_takes (h : a.step = some ((m, e), a')) (fine : a.Fine) (bottom : Bottomed a.slots) :
    ∃ ms, a.Takes a.slots e ms a' := by
  -- where only collections are open, something is expected later
  have at_ {slots : List Slot} (here : a.state.slots = slots) (low : ∀ s ∈ slots, ¬(s = .whole ∨ s = .done)) :
      a.At slots := by
    refine ⟨here, fine.later, fun none => ?_⟩
    obtain ⟨upper, s, same, last⟩ := bottom
    rw [Automaton.slots, here, none, slotsLater, List.flatMap_nil, List.append_nil] at same
    exact low s (by simp [same]) last
  unfold step at h
  split at h
  all_goals rename_i state
  · split at h
    · rename_i tokens
      cases h
      refine ⟨_, ⟨[_], tokens, rfl⟩, .unmarked rfl, ?_, fine.later, nofun⟩
      rw [Automaton.slots, state]
      exact .streamStart
    · cases h
  · exact document_takes h (congrArg _ state) (congrArg _ state) fine.later
  · exact document_takes h (congrArg _ state) (congrArg _ state) fine.later
  · exact documentBody_takes h (at_ (congrArg _ state) (by decide))
  · exact documentEnding_takes h (congrArg _ state) fine.later
  · have here : a.At [] := at_ (congrArg _ state) (by decide)
    exact here.eq_slots ▸ node_takes h here.later here.inside
  · exact begun_takes (fun b => blockSequenceEntry_takes) h fine (congrArg _ state) (at_ (congrArg _ state) (by decide))
  · exact indentlessEntry_takes h (at_ (congrArg _ state) (by decide))
  · exact begun_takes (fun b => blockMappingKey_takes) h fine (congrArg _ state) (at_ (congrArg _ state) (by decide))
  · exact blockMappingValue_takes h (at_ (congrArg _ state) (by decide))
  · exact begun_takes (f := (flowSequenceEntry · _)) (fun b => flowSequenceEntry_takes) h fine (congrArg _ state)
      (at_ (congrArg _ state) (by decide))
  · exact pairKey_takes h (at_ (congrArg _ state) (by decide))
  · exact pairValue_takes h (at_ (congrArg _ state) (by decide))
  · cases h
    refine ⟨_, ⟨[], rfl, rfl⟩, .unmarked rfl, ?_, fine.later, nofun⟩
    rw [Automaton.slots, state]
    exact .mappingEnd (by decide)
  · exact begun_takes (f := (flowMappingKey · _)) (fun b => flowMappingKey_takes) h fine (congrArg _ state)
      (at_ (congrArg _ state) (by decide))
  · exact flowMappingValue_takes h (at_ (congrArg _ state) (by decide))
  · split at h
    · cases h
    · have here : a.At [.value] := at_ (congrArg _ state) (by decide)
      exact next_takes (.flowMappingKey false) [] rfl rfl here rfl (.inl ⟨_, h⟩)

end Automaton

end LayeredConfig.Yaml
