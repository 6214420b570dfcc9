import LayeredConfig.Proofs.Yaml.Lexing

/-!
# The tokens that begin at a spot

One lemma for each token that an emitted document has: what the lexer puts behind the waiting tokens
and where it stands then.
-/

namespace LayeredConfig.Yaml

variable {cs R : List Char} {line column : Nat} {allowed bare flow : Bool} {blocks : List Nat}

/-- Behind the margin, a character that is no mark of a document begins a token of its own. -/
theorem fetchHere_eq (n : Noise) {x : Char} (ink : isGap x = false)
    (inside : Spot.top blocks + 1 ≤ column ∨ Spot.top blocks = column ∧ bare = false)
    (edge : column = 0 → x ≠ '%' ∧ x ≠ '-' ∧ x ≠ '.') :
    (Spot.lexer ⟨x :: R, line, column, allowed, blocks, bare, flow⟩ n).fetchHere =
      (Spot.lexer ⟨x :: R, line, column, allowed, blocks, bare, flow⟩ n).fetchAt := by
  have noEnd : isEnd x = false := by simp_all [isGap, isBreakOrEnd]
  have reached : ¬(column : Int) < (Spot.indent ⟨x :: R, line, column, allowed, blocks, bare, flow⟩) := by
    rw [Spot.indent]
    rcases inside with inside | ⟨inside, rfl⟩
    · split <;> simp <;> omega
    · simp; omega
  have edge' : ((column : Int) = 0) → x ≠ '%' ∧ x ≠ '-' ∧ x ≠ '.' := fun h => edge (by omega)
  have marker (y : Char) (h : (Spot.lexer ⟨x :: R, line, column, allowed, blocks, bare, flow⟩
      n).cursor.atMarker y) : x = y := by
    simp only [Cursor.atMarker, Bool.and_eq_true] at h
    exact beq_iff_eq.1 h.1.1.1
  rw [Lexer.fetchHere, show (Spot.lexer ⟨x :: R, line, column, allowed, blocks, bare, flow⟩
    n).cursor.peek = x from rfl, noEnd, if_neg Bool.false_ne_true, if_neg fun h => (edge' h.1).1 h.2,
    if_neg fun h => (edge' h.1).2.1 (marker _ h.2), if_neg fun h => (edge' h.1).2.2 (marker _ h.2)]
  exact if_neg reached

theorem fetchAt_alias {l : Lexer} (h : l.cursor.peek = '*') : l.fetchAt = l.fetchAnchor .alias := by
  simp [Lexer.fetchAt, h]

theorem fetchAt_anchor {l : Lexer} (h : l.cursor.peek = '&') : l.fetchAt = l.fetchAnchor .anchor := by
  simp [Lexer.fetchAt, h]

/-! ## Places of keys -/

/-- The place of a key that begins at a spot. -/
def Spot.keyPlace (s : Spot) (n : Noise) : KeyPlace where
  possible := true
  required := !s.flow && s.indent == s.column && s.indents.head?.any (·.block)
  number := n.released + n.waiting.length
  mark := ⟨n.index, s.line, s.column⟩

/-- The noise with the place of a key in it, if one may begin. -/
def Spot.saved (s : Spot) (n : Noise) : Noise :=
  { n with
    place := if s.keyAllowed && !s.flow then s.keyPlace n else n.place
    inner := if s.keyAllowed && s.flow then s.keyPlace n else n.inner }

theorem saveKey_lexer (s : Spot) (n : Noise) : (s.lexer n).saveKey = s.lexer (s.saved n) := by
  obtain ⟨rest, line, column, allowed, blocks, bare, flow⟩ := s
  cases allowed <;> cases flow <;> rfl

/-- Inside a block nothing requires a key. -/
theorem fits_saved {s : Spot} {n : Noise} (inner : Spot.top s.blocks + 1 < s.column)
    (fits : n.Fits cs s) : (s.saved n).Fits cs s := by
  have idle : (s.keyPlace n).Idle n.released := by
    refine ⟨fun _ => ?_, fun _ => Nat.le_add_right _ _⟩
    have other : (s.indent == (s.column : Int)) = false := by
      rw [beq_eq_false_iff_ne, Spot.indent]
      split <;> omega
    simp [Spot.keyPlace, other]
  refine ⟨fits.located, ?_, ?_⟩ <;> dsimp only [Spot.saved] <;> split
  · exact idle
  · exact fits.place
  · exact idle
  · exact fits.inner

/-! ## Anchors and aliases -/

theorem span_anchorName {a : List Char} {x : Char} (name : ∀ c ∈ a, isAnchorChar c)
    (after : isAnchorChar x = false) (m : Mark) (f : Bool) :
    Cursor.span ⟨a ++ x :: R, m, f⟩ isAnchorChar = (a, ⟨x :: R, m.right a.length, f⟩) := by
  have word : (a ++ x :: R).takeWhile (fun c => isAnchorChar c && !isBreakOrEnd c) = a := by
    rw [List.takeWhile_append_of_pos]
    · simp [after]
    · intro c hc
      have := name c hc
      simp_all [isAnchorChar, isGap]
  rw [Cursor.span, word, Cursor.skip_append]

theorem fetchAnchor_eq {l l' : Lexer} {c : Cursor} {name : List Char} (saved : l.saveKey = l')
    (spanned : l'.cursor.skipInk.span isAnchorChar = (name, c)) (nonempty : name ≠ [])
    (kind : String → TokenKind) : l.fetchAnchor kind =
      some ({ l' with keyAllowed := false, cursor := c }.push (kind (String.ofList name))
        l'.cursor.mark) := by
  have nonempty : name.isEmpty = false := by cases name <;> simp_all
  unfold Lexer.fetchAnchor
  rw [saved]
  simp [Lexer.skipInk, Lexer.mark, spanned, nonempty]

/-- The noise behind tokens that end at an index. -/
def Noise.put (n : Noise) (index : Nat) (ts : List Token) : Noise :=
  { n with index, fresh := false, waiting := n.waiting ++ ts }

theorem Noise.Fits.put {n : Noise} {s s' : Spot} (h : n.Fits cs s) {index : Nat}
    (located : Located cs s'.rest s'.line index) (ts : List Token) : (n.put index ts).Fits cs s' :=
  ⟨located, h.place, h.inner⟩

/-- A name behind its sign. -/
theorem fetchAnchor_lexer {a : List Char} {x y : Char} (nonempty : a ≠ [])
    (name : ∀ c ∈ a, isAnchorChar c) (after : isAnchorChar x = false) (kind : String → TokenKind)
    (n : Noise) :
    (Spot.lexer ⟨y :: (a ++ x :: R), line, column, allowed, blocks, bare, flow⟩ n).fetchAnchor kind =
      some (Spot.lexer ⟨x :: R, line, column + 1 + a.length, false, blocks, bare, flow⟩
        ((Spot.saved ⟨y :: (a ++ x :: R), line, column, allowed, blocks, bare, flow⟩ n).put
          (n.index + 1 + a.length) [⟨⟨n.index, line, column⟩, kind (String.ofList a)⟩])) := by
  refine (fetchAnchor_eq (saveKey_lexer _ n) ?_ nonempty kind).trans rfl
  exact span_anchorName name after _ false

theorem not_mem_of_name {a : List Char} (name : ∀ c ∈ a, isAnchorChar c) : '\n' ∉ a := fun h =>
  absurd (name _ h) (by decide)

theorem Located.name {a : List Char} {y : Char} {index : Nat} (name : ∀ c ∈ a, isAnchorChar c)
    (other : y ≠ '\n') (h : Located cs (y :: (a ++ R)) line index) :
    Located cs R line (index + 1 + a.length) := by
  have := Located.right (w := y :: a) (R := R) h fun feed =>
    (List.mem_cons.1 feed).elim (fun same => other same.symm) (not_mem_of_name name)
  rwa [List.length_cons, Nat.add_comm a.length, ← Nat.add_assoc] at this

theorem Located.lineOf {rest : List Char} {index : Nat} (h : Located cs rest line index) (l c : Nat) :
    lineOf cs ⟨index, l, c⟩ = line := h.2

/-- An alias. -/
theorem fetches_alias {a : List Char} {x : Char} (nonempty : a ≠ []) (name : ∀ c ∈ a, isAnchorChar c)
    (after : isAnchorChar x = false) (inner : Spot.top blocks + 1 < column) :
    Fetches cs ⟨'*' :: (a ++ x :: R), line, column, allowed, blocks, bare, flow⟩
      [(line, .alias (String.ofList a))]
      ⟨x :: R, line, column + 1 + a.length, false, blocks, bare, flow⟩ := by
  intro n fits
  refine ⟨_, (fits_saved inner fits).put (fits.located.name name (by decide)) _,
    (fetchHere_eq n rfl (.inl (by omega)) (by simp)).trans
      ((fetchAt_alias rfl).trans (fetchAnchor_lexer nonempty name after .alias n)), ?_⟩
  simp [shown, Noise.put, Spot.saved, fits.located.lineOf]

/-- An anchor. -/
theorem fetches_anchor {a : List Char} {x : Char} (nonempty : a ≠ []) (name : ∀ c ∈ a, isAnchorChar c)
    (after : isAnchorChar x = false) (inner : Spot.top blocks + 1 < column) :
    Fetches cs ⟨'&' :: (a ++ x :: R), line, column, allowed, blocks, bare, flow⟩
      [(0, .anchor (String.ofList a))]
      ⟨x :: R, line, column + 1 + a.length, false, blocks, bare, flow⟩ := by
  intro n fits
  refine ⟨_, (fits_saved inner fits).put (fits.located.name name (by decide)) _,
    (fetchHere_eq n rfl (.inl (by omega)) (by simp)).trans
      ((fetchAt_anchor rfl).trans (fetchAnchor_lexer nonempty name after .anchor n)), ?_⟩
  simp [shown, Noise.put, Spot.saved]

/-! ## Flow collections -/

theorem skipToLineEnd_spaces (k : Nat) {x : Char} (blank : isBlank x = false) (sign : x ≠ '#')
    (m : Mark) (f : Bool) (tabs : Bool) :
    Cursor.skipToLineEnd ⟨List.replicate k ' ' ++ x :: R, m, f⟩ tabs =
      some (⟨x :: R, m.right k, f⟩, ⟨false, (List.replicate k ' ').contains ' '⟩) := by
  have word : (List.replicate k ' ' ++ x :: R).takeWhile
      (fun y => (y == ' ' || tabs && y == '\t') && !isBreakOrEnd y) = List.replicate k ' ' := by
    simp only [isBlank, Bool.or_eq_false_iff] at blank
    rw [List.takeWhile_append_of_pos]
    · simp [blank]
    · intro c hc
      rw [List.eq_of_mem_replicate hc]
      simp [isBreakOrEnd, isBreak, isEnd]
  have spanned : Cursor.span ⟨List.replicate k ' ' ++ x :: R, m, f⟩
      (fun y => y == ' ' || tabs && y == '\t') = (List.replicate k ' ', ⟨x :: R, m.right k, f⟩) := by
    have := Cursor.skip_append (R := x :: R) (m := m) (f := f) (List.replicate k ' ')
    rw [List.length_replicate] at this
    rw [Cursor.span, word, List.length_replicate, this]
  rw [Cursor.skipToLineEnd, spanned]
  simp [sign]

theorem rollBare_lexer (rest : List Char) (nonempty : blocks ≠ []) (n : Noise) :
    (Spot.lexer ⟨rest, line, column, allowed, blocks, bare, false⟩ n).rollBare =
      Spot.lexer ⟨rest, line, column, allowed, blocks, true, false⟩ n := by
  obtain ⟨b, outer, rfl⟩ := List.exists_cons_of_ne_nil nonempty
  cases bare <;> rfl

/-- The noise without the key of the innermost collection. -/
def Noise.forget (flow : Bool) (n : Noise) : Noise :=
  { n with
    place := if flow then n.place else { n.place with possible := false }
    inner := if flow then { n.inner with possible := false } else n.inner }

theorem Noise.Fits.forget {n : Noise} {s : Spot} (h : n.Fits cs s) : (n.forget s.flow).Fits cs s := by
  refine ⟨h.located, ?_, ?_⟩ <;> dsimp only [Noise.forget] <;> split
  · exact h.place
  · exact n.place.idle_forget _
  · exact n.inner.idle_forget _
  · exact h.inner

theorem dropKey_lexer {s : Spot} {n : Noise} (h : n.Fits cs s) :
    (s.lexer n).dropKey = some (s.lexer (n.forget s.flow)) := by
  obtain ⟨rest, line, column, allowed, blocks, bare, flow⟩ := s
  have optional (p : KeyPlace) (hp : p.Idle n.released) : (p.possible && p.required) = false := by
    cases hb : p.possible
    · rfl
    · rw [hp.optional hb]; rfl
  cases flow
  · rw [Lexer.dropKey, show (Spot.lexer ⟨rest, line, column, allowed, blocks, bare, false⟩
      n).place = n.place from rfl, optional _ h.place]
    rfl
  · rw [Lexer.dropKey, show (Spot.lexer ⟨rest, line, column, allowed, blocks, bare, true⟩
      n).place = n.inner from rfl, optional _ h.inner]
    rfl

theorem fetchFlowStart_eq {l l' : Lexer} {c : Cursor} {found : Cursor.Blanks} {kind : TokenKind}
    (rolled : l.saveKey.rollBare = l') (room : l'.flow = 0)
    (line : l'.cursor.skipInk.skipToLineEnd = some (c, found)) : l.fetchFlowStart kind =
      some ({ l' with
        cursor := c, flow := 1, places := {} :: l'.places, keyAllowed := true
        mappingOpen := l'.mappingOpen || decide (kind = TokenKind.flowMappingStart) }.push kind l'.cursor.mark) := by
  unfold Lexer.fetchFlowStart
  rw [rolled]
  simp [Lexer.skipToLineEnd, Lexer.skipInk, Lexer.mark, line, room, Lexer.maxFlow]

theorem fetchAt_flowSequence {l : Lexer} (h : l.cursor.peek = '[') :
    l.fetchAt = l.fetchFlowStart .flowSequenceStart := by
  simp [Lexer.fetchAt, h]

theorem fetchAt_flowMapping {l : Lexer} (h : l.cursor.peek = '{') :
    l.fetchAt = l.fetchFlowStart .flowMappingStart := by
  simp [Lexer.fetchAt, h]

/-- The noise inside a flow collection that begins. -/
def Noise.opened (n : Noise) (mappingOpen : Bool) : Noise := { n with inner := {}, mappingOpen }

theorem Noise.Fits.opened {n : Noise} {s : Spot} (h : n.Fits cs s) (mappingOpen : Bool) :
    (n.opened mappingOpen).Fits cs s :=
  ⟨h.located, h.place, KeyPlace.idle_default _⟩

theorem fetchFlowStart_lexer (line column : Nat) (allowed bare : Bool) {x y : Char} (nonempty : blocks ≠ [])
    (blank : isBlank x = false)
    (sign : x ≠ '#') (kind : TokenKind) (n : Noise) : ∃ mappingOpen,
    (Spot.lexer ⟨y :: x :: R, line, column, allowed, blocks, bare, false⟩ n).fetchFlowStart kind =
      some (Spot.lexer ⟨x :: R, line, column + 1, true, blocks, true, true⟩
        (((Spot.saved ⟨y :: x :: R, line, column, allowed, blocks, bare, false⟩ n).opened
          mappingOpen).put (n.index + 1) [⟨⟨n.index, line, column⟩, kind⟩])) := by
  have rolled := (congrArg Lexer.rollBare (saveKey_lexer
    ⟨y :: x :: R, line, column, allowed, blocks, bare, false⟩ n)).trans (rollBare_lexer _ nonempty _)
  have past := skipToLineEnd_spaces (R := R) 0 blank sign (Mark.right ⟨n.index, line, column⟩ 1) false true
  exact ⟨_, fetchFlowStart_eq rolled rfl past⟩

/-- The start of a flow sequence. -/
theorem fetches_flowSequence {x : Char} (nonempty : blocks ≠ []) (blank : isBlank x = false)
    (sign : x ≠ '#') (inner : Spot.top blocks + 1 < column) :
    Fetches cs ⟨'[' :: x :: R, line, column, allowed, blocks, bare, false⟩
      [(line, .flowSequenceStart)] ⟨x :: R, line, column + 1, true, blocks, true, true⟩ := by
  intro n fits
  obtain ⟨mappingOpen, fetched⟩ := fetchFlowStart_lexer line column allowed bare nonempty blank sign
    .flowSequenceStart n
  refine ⟨_, ((fits_saved inner fits).opened mappingOpen).put
    (fits.located.right (w := ['[']) (by simp)) _,
    (fetchHere_eq n rfl (.inl (by omega)) (by simp)).trans ((fetchAt_flowSequence rfl).trans fetched), ?_⟩
  simp [shown, Noise.put, Noise.opened, Spot.saved, fits.located.lineOf]

/-- The start of a flow mapping. -/
theorem fetches_flowMapping {x : Char} (nonempty : blocks ≠ []) (blank : isBlank x = false)
    (sign : x ≠ '#') (inner : Spot.top blocks + 1 < column) :
    Fetches cs ⟨'{' :: x :: R, line, column, allowed, blocks, bare, false⟩
      [(line, .flowMappingStart)] ⟨x :: R, line, column + 1, true, blocks, true, true⟩ := by
  intro n fits
  obtain ⟨mappingOpen, fetched⟩ := fetchFlowStart_lexer line column allowed bare nonempty blank sign
    .flowMappingStart n
  refine ⟨_, ((fits_saved inner fits).opened mappingOpen).put
    (fits.located.right (w := ['{']) (by simp)) _,
    (fetchHere_eq n rfl (.inl (by omega)) (by simp)).trans ((fetchAt_flowMapping rfl).trans fetched), ?_⟩
  simp [shown, Noise.put, Noise.opened, Spot.saved, fits.located.lineOf]

theorem fetchFlowEnd_eq {l l' : Lexer} {c : Cursor} {found : Cursor.Blanks} {kind : TokenKind}
    (dropped : l.dropKey = some l') (inside : l'.flow = 1) (single : l'.pairOpen = false)
    (line : l'.cursor.skipInk.skipToLineEnd = some (c, found)) : l.fetchFlowEnd kind =
      some ({ l' with
        cursor := c, flow := 0, places := l'.places.drop 1, keyAllowed := false }.push kind
          l'.cursor.mark) := by
  unfold Lexer.fetchFlowEnd
  rw [dropped]
  simp [Lexer.closePair, Lexer.skipToLineEnd, Lexer.skipInk, Lexer.mark, Lexer.inFlow, line, inside, single]

theorem fetchAt_flowSequenceEnd {l : Lexer} (h : l.cursor.peek = ']') :
    l.fetchAt = l.fetchFlowEnd .flowSequenceEnd := by
  simp [Lexer.fetchAt, h]

theorem fetchAt_flowMappingEnd {l : Lexer} (h : l.cursor.peek = '}') :
    l.fetchAt = l.fetchFlowEnd .flowMappingEnd := by
  simp [Lexer.fetchAt, h]

theorem fetchAt_flowEntry {l : Lexer} (h : l.cursor.peek = ',') : l.fetchAt = l.fetchFlowEntry := by
  simp [Lexer.fetchAt, h]

theorem fetchFlowEnd_lexer {y : Char} {n : Noise}
    (fits : n.Fits cs ⟨y :: '\n' :: R, line, column, allowed, blocks, bare, true⟩) (kind : TokenKind) :
    (Spot.lexer ⟨y :: '\n' :: R, line, column, allowed, blocks, bare, true⟩ n).fetchFlowEnd kind =
      some (Spot.lexer ⟨'\n' :: R, line, column + 1, false, blocks, bare, false⟩
        ((n.forget true).put (n.index + 1) [⟨⟨n.index, line, column⟩, kind⟩])) :=
  fetchFlowEnd_eq (dropKey_lexer fits) rfl rfl
    (skipToLineEnd_spaces (R := R) 0 (x := '\n') rfl (by decide)
      (Mark.right ⟨n.index, line, column⟩ 1) false true)

/-- The end of a flow sequence, at the end of a line. -/
theorem fetches_flowSequenceEnd (inner : Spot.top blocks + 1 < column) :
    Fetches cs ⟨']' :: '\n' :: R, line, column, allowed, blocks, bare, true⟩
      [(0, .flowSequenceEnd)] ⟨'\n' :: R, line, column + 1, false, blocks, bare, false⟩ := by
  intro n fits
  refine ⟨_, fits.forget.put (fits.located.right (w := [']']) (by simp)) _,
    (fetchHere_eq n rfl (.inl (by omega)) (by simp)).trans
      ((fetchAt_flowSequenceEnd rfl).trans (fetchFlowEnd_lexer fits _)), ?_⟩
  simp [shown, Noise.put, Noise.forget]

/-- The end of a flow mapping, at the end of a line. -/
theorem fetches_flowMappingEnd (inner : Spot.top blocks + 1 < column) :
    Fetches cs ⟨'}' :: '\n' :: R, line, column, allowed, blocks, bare, true⟩
      [(0, .flowMappingEnd)] ⟨'\n' :: R, line, column + 1, false, blocks, bare, false⟩ := by
  intro n fits
  refine ⟨_, fits.forget.put (fits.located.right (w := ['}']) (by simp)) _,
    (fetchHere_eq n rfl (.inl (by omega)) (by simp)).trans
      ((fetchAt_flowMappingEnd rfl).trans (fetchFlowEnd_lexer fits _)), ?_⟩
  simp [shown, Noise.put, Noise.forget]

theorem fetchFlowEntry_eq {l l' : Lexer} {c : Cursor} {found : Cursor.Blanks}
    (dropped : l.dropKey = some l') (single : l'.pairOpen = false)
    (line : l'.cursor.skipInk.skipToLineEnd = some (c, found)) : l.fetchFlowEntry =
      some ({ l' with cursor := c, keyAllowed := true }.push .flowEntry l'.cursor.mark) := by
  unfold Lexer.fetchFlowEntry
  rw [dropped]
  simp [Lexer.closePair, Lexer.skipToLineEnd, Lexer.skipInk, Lexer.mark, line, single]

/-- The comma of a flow sequence and the blank behind it. -/
theorem fetches_flowEntry {x : Char} (blank : isBlank x = false) (sign : x ≠ '#')
    (inner : Spot.top blocks + 1 < column) :
    Fetches cs ⟨',' :: ' ' :: x :: R, line, column, allowed, blocks, bare, true⟩
      [(0, .flowEntry)] ⟨x :: R, line, column + 2, true, blocks, bare, true⟩ := by
  intro n fits
  have past := skipToLineEnd_spaces (R := R) 1 blank sign (Mark.right ⟨n.index, line, column⟩ 1) false true
  refine ⟨_, fits.forget.put (fits.located.right (w := [',', ' ']) (by simp)) _,
    (fetchHere_eq n rfl (.inl (by omega)) (by simp)).trans
      ((fetchAt_flowEntry rfl).trans (fetchFlowEntry_eq (dropKey_lexer fits) rfl past)), ?_⟩
  simp [shown, Noise.put, Noise.forget]

/-! ## Blocks -/

/-- What opens a block at a column further in than those that are open. -/
theorem roll_lexer (rest : List Char) (c : Nat) (deeper : Spot.top blocks < column)
    (number : Option Nat) (kind : TokenKind) (m : Mark) (n : Noise) :
    (Spot.lexer ⟨rest, line, c, allowed, blocks, bare, false⟩ n).roll column number kind m =
      number.elim
        ((Spot.lexer ⟨rest, line, c, allowed, column :: blocks, false, false⟩ n).push kind m)
        ((Spot.lexer ⟨rest, line, c, allowed, column :: blocks, false, false⟩ n).insert · kind m) := by
  have reaches : Spot.top blocks + 1 ≤ column := deeper
  cases number <;> cases bare
  all_goals
    cases blocks with
    | nil =>
      have outermost : (-1 : Int) < column := by omega
      simp [Lexer.roll, Spot.lexer, Lexer.inFlow, Spot.indents, Spot.indent, Spot.stack, Spot.top,
        Lexer.push, Lexer.insert, outermost]
    | cons b blocks =>
      have deeper : (b : Int) < column := deeper
      have reaches : (b : Int) + 1 ≤ column := reaches
      simp [Lexer.roll, Spot.lexer, Lexer.inFlow, Spot.indents, Spot.indent, Spot.stack, deeper,
        reaches, Lexer.push, Lexer.insert]

/-- No block opens at the column of the innermost. -/
theorem roll_same (rest : List Char) (c : Nat) (number : Option Nat) (kind : TokenKind) (m : Mark)
    (n : Noise) :
    (Spot.lexer ⟨rest, line, c, allowed, column :: blocks, false, false⟩ n).roll column number kind m =
      Spot.lexer ⟨rest, line, c, allowed, column :: blocks, false, false⟩ n := by
  simp [Lexer.roll, Spot.lexer, Lexer.inFlow, Spot.indents, Spot.indent, Spot.stack]

/-- Entries at a column: whether they begin a block within the open blocks, or go on with the
innermost. -/
inductive Opens (column : Nat) (opening : List (Nat × TokenKind)) :
    List Nat → Bool → List Nat → List (Nat × TokenKind) → Prop
  | begin {blocks : List Nat} (bare : Bool) (deeper : Spot.top blocks < column) :
    Opens column opening blocks bare (column :: blocks) opening
  | resume (outer : List Nat) : Opens column opening (column :: outer) false (column :: outer) []

theorem fetchBlockEntry_eq {l l₁ l₂ l₃ : Lexer} {c : Cursor} {b b' : Bool} (block : l.inFlow = false)
    (allowed : l.keyAllowed = true) (column : l.column ≠ 0)
    (rolled : l.skipInk.roll l.mark.column none .blockSequenceStart l.mark = l₁)
    (line : l₁.cursor.skipToLineEnd = some (c, ⟨false, b⟩))
    (line' : c.skipToLineEnd false = some (c, ⟨false, b'⟩))
    (bared : (if isBreak c.peek || isFlow c.peek then { l₁ with cursor := c : Lexer }.rollBare
      else { l₁ with cursor := c }) = l₂)
    (dropped : l₂.dropKey = some l₃) :
    l.fetchBlockEntry = some ({ l₃ with keyAllowed := true }.push .blockEntry l₃.mark) := by
  simp only [Bool.or_eq_true] at bared
  unfold Lexer.fetchBlockEntry
  simp [block, allowed, column, rolled, Lexer.skipToLineEnd, line, line', bared, dropped]

theorem fetchAt_blockEntry {l : Lexer} (h : l.cursor.peek = '-') (gap : isGap (l.cursor.peek 1)) :
    l.fetchAt = l.fetchBlockEntry := by
  simp [Lexer.fetchAt, h, gap]

/-- The dash of an item, with the blanks behind it. -/
theorem fetches_blockEntry {k : Nat} {x : Char} {after : List Nat} {opening : List (Nat × TokenKind)}
    (opens : Opens column [(line, .blockSequenceStart)] blocks bare after opening)
    (blank : isBlank x = false) (sign : x ≠ '#') (gap : k = 0 → isGap x) (inside : column ≠ 0) :
    Fetches cs ⟨'-' :: (List.replicate k ' ' ++ x :: R), line, column, true, blocks, bare, false⟩
      (opening ++ [(0, .blockEntry)])
      ⟨x :: R, line, column + 1 + k, true, after, isBreak x || isFlow x, false⟩ := by
  intro n fits
  have past (tabs : Bool) := skipToLineEnd_spaces (R := R) k blank sign (Mark.right ⟨n.index, line, column⟩ 1)
    false tabs
  have located : Located cs (x :: R) line (n.index + 1 + k) := by
    have := Located.right (w := '-' :: List.replicate k ' ') (R := x :: R) fits.located (by simp)
    simpa [Nat.add_assoc, Nat.add_comm k] using this
  have bared (after : List Nat) (nonempty : after ≠ []) (n : Noise) :
      (if isBreak x || isFlow x then
        (Spot.lexer ⟨x :: R, line, column + 1 + k, true, after, false, false⟩ n).rollBare
      else Spot.lexer ⟨x :: R, line, column + 1 + k, true, after, false, false⟩ n) =
        Spot.lexer ⟨x :: R, line, column + 1 + k, true, after, isBreak x || isFlow x, false⟩ n := by
    split
    · rename_i more
      rw [rollBare_lexer _ nonempty, more]
    · rename_i same
      rw [Bool.eq_false_iff.2 same]
  have dash : isGap (Cursor.peek ⟨'-' :: (List.replicate k ' ' ++ x :: R), ⟨n.index, line, column⟩, n.fresh⟩ 1) := by
    cases k with
    | zero => exact gap rfl
    | succ k => rfl
  have after_ne : after ≠ [] := by cases opens <;> simp
  obtain ⟨ts, rolled, shows⟩ : ∃ ts,
      (Spot.lexer ⟨List.replicate k ' ' ++ x :: R, line, column + 1, true, blocks, bare, false⟩
        (n.put (n.index + 1) [])).roll column none .blockSequenceStart ⟨n.index, line, column⟩ =
        Spot.lexer ⟨List.replicate k ' ' ++ x :: R, line, column + 1, true, after, false, false⟩
          (n.put (n.index + 1) ts) ∧ ts.map (shown cs) = opening := by
    cases opens with
    | begin bare deeper =>
      refine ⟨[⟨⟨n.index, line, column⟩, .blockSequenceStart⟩], (roll_lexer _ _ deeper none _ _ _).trans ?_, ?_⟩
      · simp [Spot.lexer, Lexer.push, Noise.put, Spot.indent, Spot.indents]
      · simp [shown, fits.located.lineOf]
    | resume outer => exact ⟨[], roll_same _ _ _ _ _ _, rfl⟩
  have start : (Spot.lexer ⟨'-' :: (List.replicate k ' ' ++ x :: R), line, column, true, blocks, bare, false⟩
      n).skipInk = Spot.lexer ⟨List.replicate k ' ' ++ x :: R, line, column + 1, true, blocks, bare, false⟩
        (n.put (n.index + 1) []) := by
    simp [Spot.lexer, Lexer.skipInk, Noise.put, Mark.right, Spot.indent, Spot.indents]
  have inside' : Spot.top blocks + 1 ≤ column ∨ Spot.top blocks = column ∧ bare = false := by
    cases opens with
    | begin bare deeper => exact .inl deeper
    | resume outer => exact .inr ⟨rfl, rfl⟩
  have fits' : (n.put (n.index + 1 + k) ts).Fits cs
      ⟨x :: R, line, column + 1 + k, true, after, isBreak x || isFlow x, false⟩ := fits.put located _
  refine ⟨_, fits'.forget.put located [⟨⟨n.index + 1 + k, line, column + 1 + k⟩, .blockEntry⟩],
    (fetchHere_eq n rfl inside' (by simp [inside])).trans ((fetchAt_blockEntry rfl dash).trans
      (fetchBlockEntry_eq rfl rfl (by simpa [Spot.lexer, Lexer.column, Cursor.column] using inside)
        ((congrArg (Lexer.roll · _ none _ _) start).trans rolled) (past true)
        (skipToLineEnd_spaces 0 blank sign _ _ false) (bared after after_ne (n.put (n.index + 1 + k) ts))
          (dropKey_lexer fits'))), ?_⟩
  simp [Noise.put, Noise.forget, shown, shows]

end LayeredConfig.Yaml
