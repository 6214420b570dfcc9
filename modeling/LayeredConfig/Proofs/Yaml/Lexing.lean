import LayeredConfig.Proofs.Yaml.Spelling
import LayeredConfig.Yaml.Drafts

/-!
# The lexer between two tokens

A `Spot` is what decides the next tokens: the rest of the text, the place on the line, and the open
blocks. Everything else that the lexer carries, tokens that wait among it, is `Noise`. `Emits s ts s'`
says that the tokens of the text from `s` on begin with `ts` and go on as those from `s'`, whatever
the noise. The lexer is looked at right before it decides on a token: behind the blanks and comments,
with the blocks closed that end there.
-/

namespace LayeredConfig.Yaml

/-! ## Cutting a step in two -/

namespace Lexer

/-- Past blanks and comments, with the blocks closed that end there. -/
def prepare (l : Lexer) : Option Lexer := do
  let l ← skipBlanks? l.fuel l
  let l ← l.dropStaleKeys
  some (l.unroll l.column)

/-- The tokens that begin where the lexer stands. -/
def fetchHere (l : Lexer) : Option Lexer :=
  if isEnd l.cursor.peek then l.fetchStreamEnd
  else if l.column = 0 ∧ l.cursor.peek = '%' then l.fetchDirective
  else if l.column = 0 ∧ l.cursor.atMarker '-' then l.fetchDocumentMark .documentStart
  else if l.column = 0 ∧ l.cursor.atMarker '.' then do
    let l ← l.fetchDocumentMark .documentEnd
    let (l, _) ← l.skipToLineEnd
    if isBreakOrEnd l.cursor.peek then some l else none
  else if l.column < l.indent then none
  else l.fetchAt

theorem fetch_eq (l : Lexer) : l.fetch = l.prepare.bind fetchHere := by
  simp only [fetch, prepare, Option.bind_eq_bind, Option.bind_assoc]
  rfl

/-- The tokens from a lexer on that has been prepared. -/
def tokensHere (fuel : Nat) (l : Lexer) : List Token :=
  match l.fetchHere with
  | none => []
  | some l => l.tokens fuel

theorem tokens_succ {l l₁ l₂ l₃ : Lexer} {ts : List Token} (fresh : l.dropStaleKeys = some l₁)
    (released : l₁.release = (ts, l₂)) (open' : l₂.ended = false) (prepared : l₂.prepare = some l₃)
    (fuel : Nat) : l.tokens (fuel + 1) = ts ++ l₃.tokensHere fuel := by
  rw [tokens, fresh]
  simp only [released, open', fetch_eq, prepared, Option.bind_some, Bool.false_eq_true, if_false]
  unfold tokensHere
  cases l₃.fetchHere <;> simp

/-! ## Waiting tokens -/

/-- What may become a key still waits. -/
def Waits (released : Nat) (p : KeyPlace) : Prop := p.possible → released ≤ p.number

theorem release_go (l : Lexer) (ts : List Token) (released : Nat)
    (h : ∀ p ∈ l.places, Waits released p) : ∃ out kept, ts = out ++ kept ∧
      release.go l ts released = (out, kept, released + out.length) ∧
      ∀ p ∈ l.places, Waits (released + out.length) p := by
  induction ts generalizing released with
  | nil => exact ⟨[], [], rfl, rfl, h⟩
  | cons t ts ih =>
    by_cases undecided : { l with released }.undecided
    · exact ⟨[], t :: ts, rfl, by rw [release.go, if_pos undecided]; rfl, h⟩
    · have next : ∀ p ∈ l.places, Waits (released + 1) p := fun p hp possible => by
        have other : p.number ≠ released := fun same => undecided (by
          simp only [Lexer.undecided, List.any_eq_true]
          exact ⟨p, hp, by simp [possible, same]⟩)
        have := h p hp possible
        omega
      obtain ⟨out, kept, rfl, run, waits⟩ := ih (released + 1) next
      refine ⟨t :: out, kept, rfl, ?_, ?_⟩
      · rw [release.go, if_neg undecided, run, List.length_cons]
        simp only [Nat.add_assoc, Nat.add_comm 1]
      · rw [List.length_cons, Nat.add_comm out.length, ← Nat.add_assoc]
        exact waits

theorem release_eq (l : Lexer) (h : ∀ p ∈ l.places, Waits l.released p) :
    ∃ out kept, l.waiting = out ++ kept ∧
      l.release = (out, { l with waiting := kept, released := l.released + out.length }) ∧
      ∀ p ∈ l.places, Waits (l.released + out.length) p := by
  obtain ⟨out, kept, split, run, waits⟩ := release_go l l.waiting l.released h
  exact ⟨out, kept, split, by rw [release, run], waits⟩

end Lexer

/-! ## Spots -/

/-- Where the lexer stands: the rest of the text, the line and the column it begins at, whether a
key may begin there, and the columns of the open blocks, innermost first. A spot is `bare` when what
follows has to be indented further than the innermost block. -/
structure Spot where
  rest : List Char
  line : Nat
  column : Nat
  keyAllowed : Bool
  blocks : List Nat
  bare : Bool
  flow : Bool := false

/-- What a lexer carries beside. -/
structure Noise where
  index : Nat
  fresh : Bool
  waiting : List Token
  released : Nat
  /-- The places of keys, of a flow collection first if one is open. -/
  place : KeyPlace
  inner : KeyPlace
  adjacent : Nat
  mappingOpen : Bool

namespace Spot

/-- The column of the innermost block. -/
def top : List Nat → Int
  | [] => -1
  | column :: _ => column

@[simp] theorem top_cons (column : Nat) (blocks : List Nat) : top (column :: blocks) = column := rfl

/-- The enclosing columns of open blocks. -/
def stack : List Nat → List Indent
  | [] => []
  | _ :: outer => ⟨top outer, true⟩ :: stack outer

/-- The column that what follows has to reach. -/
def indent (s : Spot) : Int := if s.bare then top s.blocks + 1 else top s.blocks

/-- The enclosing columns. -/
def indents (s : Spot) : List Indent :=
  if s.bare then ⟨top s.blocks, false⟩ :: stack s.blocks else stack s.blocks

/-- The lexer at a spot. -/
def lexer (s : Spot) (n : Noise) : Lexer where
  cursor := ⟨s.rest, ⟨n.index, s.line, s.column⟩, n.fresh⟩
  waiting := n.waiting
  released := n.released
  keyAllowed := s.keyAllowed
  places := if s.flow then [n.inner, n.place] else [n.place]
  indent := s.indent
  indents := s.indents
  flow := if s.flow then 1 else 0
  adjacent := n.adjacent
  mappingOpen := n.mappingOpen

end Spot

/-- The rest of a text from an index on, with so many line feeds before it. -/
def Located (cs rest : List Char) (line index : Nat) : Prop :=
  cs.drop index = rest ∧ (cs.take index).count '\n' = line

/-- A place that nothing depends on: no key has to begin there, and its token waits if one may. -/
structure KeyPlace.Idle (p : KeyPlace) (released : Nat) : Prop where
  optional : p.possible → p.required = false
  waits : Lexer.Waits released p

/-- Noise that may be at a spot of a text. -/
structure Noise.Fits (n : Noise) (cs : List Char) (s : Spot) : Prop where
  located : Located cs s.rest s.line n.index
  place : n.place.Idle n.released
  inner : n.inner.Idle n.released

/-- A token as it counts for what it begins: the line, zero for tokens that begin nothing, and the
kind. -/
def shown (cs : List Char) (t : Token) : Nat × TokenKind :=
  match t.kind with
  | .scalar .. | .alias _ | .blockSequenceStart | .blockMappingStart | .flowSequenceStart
  | .flowMappingStart => (lineOf cs t.mark, t.kind)
  | kind => (0, kind)

/-- The tokens of a text from a spot on are `out` and those from another spot on. -/
def Emits (cs : List Char) (s : Spot) (out : List (Nat × TokenKind)) (s' : Spot) : Prop :=
  ∀ n : Noise, n.Fits cs s → ∃ steps, ∃ n' : Noise, ∃ ts, n'.Fits cs s' ∧
    (∀ fuel, (s.lexer n).tokensHere (fuel + steps) = ts ++ (s'.lexer n').tokensHere fuel) ∧
    (ts ++ n'.waiting).map (shown cs) = n.waiting.map (shown cs) ++ out ∧
    steps + s'.rest.length ≤ s.rest.length

namespace Emits

variable {cs : List Char} {s s' s'' : Spot} {out out' : List (Nat × TokenKind)}

theorem trans (first : Emits cs s out s') (second : Emits cs s' out' s'') :
    Emits cs s (out ++ out') s'' := by
  intro n fits
  obtain ⟨k, n₁, ts, fits₁, run, same, length⟩ := first n fits
  obtain ⟨k', n₂, ts', fits₂, run', same', length'⟩ := second n₁ fits₁
  refine ⟨k' + k, n₂, ts ++ ts', fits₂, fun fuel => ?_, ?_, by omega⟩
  · rw [← Nat.add_assoc, run, run', List.append_assoc]
  · rw [List.append_assoc, List.map_append, same', ← List.append_assoc, ← List.map_append, same,
      List.append_assoc]

end Emits

/-! ## From one token to the next -/

theorem KeyPlace.idle_forget (p : KeyPlace) (r : Nat) :
    { p with possible := false : KeyPlace }.Idle r :=
  ⟨by simp, by simp [Lexer.Waits]⟩

theorem dropStaleKeys_lexer {cs : List Char} {s : Spot} {n : Noise} (h : n.Fits cs s) :
    ∃ place : KeyPlace, place.Idle n.released ∧
      (s.lexer n).dropStaleKeys = some (s.lexer { n with place }) := by
  obtain ⟨rest, line, column, keyAllowed, blocks, bare, flow⟩ := s
  cases flow with
  | true =>
    refine ⟨n.place, h.place, ?_⟩
    simp [Lexer.dropStaleKeys, Spot.lexer, Lexer.inFlow]
  | false =>
    have optional (p : KeyPlace) (hp : p.Idle n.released) (b : Bool) :
        (p.possible && b && p.required) = false := by
      cases hb : p.possible
      · simp
      · simp [hp.optional hb]
    refine ⟨if n.place.possible && (n.place.mark.line < line || n.place.mark.index + 1024 < n.index)
      then { n.place with possible := false } else n.place, ?_, ?_⟩
    · split
      · exact n.place.idle_forget _
      · exact h.place
    · simp [Lexer.dropStaleKeys, Spot.lexer, Lexer.inFlow, Lexer.mark, optional _ h.place]

theorem unrollFrom_stack (column : Nat) (m : Mark) (blocks : List Nat) (ends : List Token) :
    Lexer.unrollFrom column m (Spot.stack blocks) (Spot.top blocks) ends =
      (Spot.stack (blocks.dropWhile (column < ·)), Spot.top (blocks.dropWhile (column < ·)),
        ends ++ (blocks.takeWhile (column < ·)).map fun _ => ⟨m, .blockEnd⟩) := by
  induction blocks generalizing ends with
  | nil => simp [Spot.stack, Lexer.unrollFrom]
  | cons b blocks ih =>
    by_cases inner : column < b
    · have inner' : (column : Int) < b := by omega
      simp [Spot.stack, Lexer.unrollFrom, inner', ih, inner]
    · have inner' : ¬(column : Int) < b := by omega
      simp [Spot.stack, Lexer.unrollFrom, inner', inner]

/-- The spot with the blocks closed that end at its column. -/
def Spot.unrolled (s : Spot) : Spot :=
  { s with
    blocks := s.blocks.dropWhile (s.column < ·)
    bare := s.bare && Spot.top s.blocks < s.column }

/-- The ends of the blocks that are closed at a column. -/
def closings (blocks : List Nat) (column : Nat) : List (Nat × TokenKind) :=
  (blocks.takeWhile (column < ·)).map fun _ => (0, .blockEnd)

theorem unroll_lexer {s : Spot} (n : Noise) (block : s.flow = false) : ∃ ends,
    (s.lexer n).unroll s.column = s.unrolled.lexer { n with waiting := n.waiting ++ ends } ∧
      ∀ cs, ends.map (shown cs) = closings s.blocks s.column := by
  obtain ⟨rest, line, column, keyAllowed, blocks, bare, flow⟩ := s
  cases block
  refine ⟨(blocks.takeWhile (column < ·)).map fun _ => ⟨⟨n.index, line, column⟩, .blockEnd⟩, ?_, ?_⟩
  · cases bare with
    | false =>
      simp [Lexer.unroll, Spot.lexer, Lexer.inFlow, Spot.indent, Spot.indents, Spot.unrolled,
        unrollFrom_stack, Lexer.mark]
    | true =>
      by_cases inner : Spot.top blocks < column
      · have kept : ¬(column : Int) < Spot.top blocks + 1 := by omega
        cases blocks with
        | nil =>
          simp [Lexer.unroll, Spot.lexer, Lexer.inFlow, Spot.indent, Spot.indents, Spot.unrolled,
            Lexer.unrollFrom, kept, inner]
        | cons b blocks =>
          have stays : ¬column < b := by simp at inner; omega
          simp only [Spot.top_cons] at inner kept
          simp [Lexer.unroll, Spot.lexer, Lexer.inFlow, Spot.indent, Spot.indents, Spot.unrolled,
            Lexer.unrollFrom, kept, inner, stays]
      · have popped : (column : Int) < Spot.top blocks + 1 := by omega
        simp [Lexer.unroll, Spot.lexer, Lexer.inFlow, Spot.indent, Spot.indents, Spot.unrolled,
          Lexer.unrollFrom, popped, inner, unrollFrom_stack, Lexer.mark]
  · intro cs
    simp [closings, shown]

/-- Closing blocks at the column of a spot tells `out` and leads to another spot. -/
def Unrolls (s : Spot) (out : List (Nat × TokenKind)) (s' : Spot) : Prop :=
  ∀ n : Noise, ∃ ends, (s.lexer n).unroll s.column = s'.lexer { n with waiting := n.waiting ++ ends } ∧
    ∀ cs, ends.map (shown cs) = out

theorem unrolls_block {s : Spot} (block : s.flow = false) :
    Unrolls s (closings s.blocks s.column) s.unrolled := fun n => unroll_lexer n block

theorem unrolls_flow {s : Spot} (flow : s.flow = true) : Unrolls s [] s := fun n =>
  ⟨[], by simp [Lexer.unroll, Spot.lexer, Lexer.inFlow, flow], fun _ => rfl⟩

/-- Blanks and comments lead from a spot to another. -/
def Skips (cs : List Char) (s s' : Spot) : Prop :=
  ∀ n : Noise, Located cs s.rest s.line n.index → ∃ index fresh,
    Lexer.skipBlanks? (s.lexer n).fuel (s.lexer n) = some (s'.lexer { n with index, fresh }) ∧
      Located cs s'.rest s'.line index

/-- The tokens `out` that begin at a spot lead to another. -/
def Fetches (cs : List Char) (s : Spot) (out : List (Nat × TokenKind)) (s' : Spot) : Prop :=
  ∀ n : Noise, n.Fits cs s → ∃ n' : Noise, n'.Fits cs s' ∧
    (s.lexer n).fetchHere = some (s'.lexer n') ∧
    n'.waiting.map (shown cs) = n.waiting.map (shown cs) ++ out

theorem KeyPlace.idle_default (r : Nat) : KeyPlace.Idle {} r := KeyPlace.idle_forget {} r

theorem release_lexer {cs : List Char} {s : Spot} {n : Noise} (h : n.Fits cs s) :
    ∃ ts, ∃ n' : Noise, n'.Fits cs s ∧ (s.lexer n).release = (ts, s.lexer n') ∧
      n.waiting = ts ++ n'.waiting := by
  have waits : ∀ p ∈ (s.lexer n).places, Lexer.Waits n.released p := by
    intro p hp
    simp only [Spot.lexer] at hp
    split at hp <;> simp only [List.mem_cons, List.not_mem_nil, or_false] at hp
    · rcases hp with rfl | rfl
      · exact h.inner.waits
      · exact h.place.waits
    · exact hp ▸ h.place.waits
  obtain ⟨ts, kept, split, run, after⟩ := Lexer.release_eq (s.lexer n) waits
  refine ⟨ts, { n with
    waiting := kept, released := n.released + ts.length, inner := if s.flow then n.inner else {} },
    ⟨h.located, ⟨h.place.optional, after n.place ?_⟩, ?_⟩, ?_, split⟩
  · cases hf : s.flow <;> simp [Spot.lexer, hf]
  · cases hf : s.flow with
    | false => exact KeyPlace.idle_default _
    | true => exact ⟨h.inner.optional, after n.inner (by simp [Spot.lexer, hf])⟩
  · rw [run]
    cases hf : s.flow <;> simp [Spot.lexer, hf]

/-- Once a token is fetched, the blanks behind it lead to where the next one is decided. -/
theorem Skips.tokens {cs : List Char} {s s₁ s' : Spot} {out : List (Nat × TokenKind)}
    (skips : Skips cs s s₁) (unrolls : Unrolls s₁ out s') (same : s'.rest = s₁.rest ∧ s'.line = s₁.line)
    {n : Noise} (fits : n.Fits cs s) :
    ∃ ts, ∃ n' : Noise, n'.Fits cs s' ∧
      (∀ fuel, (s.lexer n).tokens (fuel + 1) = ts ++ (s'.lexer n').tokensHere fuel) ∧
      (ts ++ n'.waiting).map (shown cs) = n.waiting.map (shown cs) ++ out := by
  obtain ⟨place, idle, fresh⟩ := dropStaleKeys_lexer fits
  have fits₁ : { n with place }.Fits cs s := ⟨fits.located, idle, fits.inner⟩
  obtain ⟨ts, n₂, fits₂, released, split⟩ := release_lexer fits₁
  obtain ⟨index, fresh', skipped, located⟩ := skips n₂ fits₂.located
  have fits₃ : { n₂ with index, fresh := fresh' : Noise }.Fits cs s₁ :=
    ⟨located, fits₂.place, fits₂.inner⟩
  obtain ⟨place', idle', fresh''⟩ := dropStaleKeys_lexer fits₃
  obtain ⟨ends, unrolled, shows⟩ := unrolls { n₂ with index, fresh := fresh', place := place' }
  have prepared : (s.lexer n₂).prepare = some (s'.lexer
      { n₂ with index, fresh := fresh', place := place', waiting := n₂.waiting ++ ends }) := by
    rw [Lexer.prepare, skipped, Option.bind_eq_bind, Option.bind_some, fresh'', Option.bind_some]
    exact congrArg some unrolled
  refine ⟨ts,
    { n₂ with index, fresh := fresh', place := place', waiting := n₂.waiting ++ ends },
    ⟨by rw [same.1, same.2]; exact located, idle', fits₂.inner⟩,
    Lexer.tokens_succ fresh released rfl prepared, ?_⟩
  rw [← List.append_assoc, ← split, List.map_append, shows]

/-- One step: tokens are fetched, blanks skipped and blocks closed. -/
theorem Fetches.emits {cs : List Char} {s s₁ s₂ s' : Spot} {out ends : List (Nat × TokenKind)}
    (fetches : Fetches cs s out s₁) (skips : Skips cs s₁ s₂) (unrolls : Unrolls s₂ ends s')
    (same : s'.rest = s₂.rest ∧ s'.line = s₂.line) (shorter : s'.rest.length < s.rest.length) :
    Emits cs s (out ++ ends) s' := by
  intro n fits
  obtain ⟨n₁, fits₁, fetched, told⟩ := fetches n fits
  obtain ⟨ts, n', fits', run, shows⟩ := skips.tokens unrolls same fits₁
  refine ⟨1, n', ts, fits', fun fuel => ?_, ?_, by omega⟩
  · rw [Lexer.tokensHere, fetched]
    exact run fuel
  · rw [shows, told, List.append_assoc]

/-! ## Blanks and comments -/

section Blanks

variable {l : Lexer} {R : List Char} {m : Mark} {f : Bool}

theorem skipBlanks?_space (h : l.cursor = ⟨' ' :: R, m, f⟩) (fuel : Nat) :
    Lexer.skipBlanks? (fuel + 1) l =
      Lexer.skipBlanks? fuel { l with cursor := ⟨R, m.right 1, f⟩ } := by
  rw [Lexer.skipBlanks?]
  simp [h, isBlank]

theorem skipBlanks?_spaces (h : l.cursor = ⟨List.replicate k ' ' ++ R, m, f⟩) (fuel : Nat) :
    Lexer.skipBlanks? (fuel + k) l =
      Lexer.skipBlanks? fuel { l with cursor := ⟨R, m.right k, f⟩ } := by
  induction k generalizing l m with
  | zero => cases l; cases h; rfl
  | succ k ih =>
    rw [← Nat.add_assoc, skipBlanks?_space (by rw [h, List.replicate_succ]; rfl), ih rfl,
      Mark.right_right, Nat.add_comm 1]

theorem skipBlanks?_feed (h : l.cursor = ⟨'\n' :: R, m, f⟩) (fuel : Nat) :
    Lexer.skipBlanks? (fuel + 1) l = Lexer.skipBlanks? fuel
      { l with cursor := ⟨R, m.down, true⟩, keyAllowed := l.keyAllowed || !l.inFlow } := by
  rw [Lexer.skipBlanks?]
  simp [h, isBlank, isBreak]

theorem skipBlanks?_comment {body : List Char} (h : l.cursor = ⟨'#' :: (body ++ '\n' :: R), m, f⟩)
    (line : ∀ c ∈ body, isBreakOrEnd c = false) (fuel : Nat) :
    Lexer.skipBlanks? (fuel + 1) l = Lexer.skipBlanks? fuel
      { l with cursor := ⟨'\n' :: R, m.right (body.length + 1), false⟩ } := by
  have word : ('#' :: (body ++ '\n' :: R)).takeWhile (fun x => true && !isBreakOrEnd x) = '#' :: body := by
    rw [← List.cons_append, List.takeWhile_append_of_pos]
    · simp [isBreakOrEnd, isBreak]
    · intro c hc
      rcases List.mem_cons.1 hc with rfl | hc
      · rfl
      · simp [line c hc]
  have line : Cursor.skipLine ⟨'#' :: (body ++ '\n' :: R), m, f⟩ =
      ⟨'\n' :: R, m.right (body.length + 1), false⟩ := by
    have skipped := Cursor.skip_append (R := '\n' :: R) (m := m) (f := f) ('#' :: body)
    rw [Cursor.skipLine, Cursor.span, word, ← List.cons_append, skipped]
    rfl
  rw [Lexer.skipBlanks?]
  simp [h, isBlank, isBreak, line]

theorem skipBlanks?_content {x : Char} (h : l.cursor = ⟨x :: R, m, f⟩) (ink : isGap x = false)
    (sign : x ≠ '#') (fuel : Nat) : Lexer.skipBlanks? (fuel + 1) l = some l := by
  have ⟨blank, stop, _⟩ : isBlank x = false ∧ isBreak x = false ∧ isEnd x = false := by
    simpa [isGap, isBreakOrEnd] using ink
  have tab : x ≠ '\t' := by rintro rfl; cases blank
  rw [Lexer.skipBlanks?]
  simp [h, blank, stop, tab, sign]

theorem skipBlanks?_end (h : l.cursor = ⟨[], m, f⟩) (fuel : Nat) :
    Lexer.skipBlanks? (fuel + 1) l = some l := by
  rw [Lexer.skipBlanks?]
  simp [h, isBlank, isBreak]

end Blanks

theorem Located.skip {cs w R : List Char} {line index : Nat} (h : Located cs (w ++ R) line index) :
    Located cs R (line + w.count '\n') (index + w.length) := by
  obtain ⟨rest, count⟩ := h
  refine ⟨by rw [← List.drop_drop, rest, List.drop_left], ?_⟩
  rw [List.take_add, List.count_append, count, rest, List.take_left]

theorem Located.right {cs w R : List Char} {line index : Nat} (h : Located cs (w ++ R) line index)
    (one : '\n' ∉ w) : Located cs R line (index + w.length) := by
  simpa [List.count_eq_zero.2 one] using h.skip

theorem Located.down {cs R : List Char} {line index : Nat} (h : Located cs ('\n' :: R) line index) :
    Located cs R (line + 1) (index + 1) := by
  simpa using Located.skip (w := ['\n']) h

/-- Behind the indentation `j` of a line the text leads over comment lines of this indentation to
the content of a line, or to the end. -/
inductive Lead (j : Nat) : List Char → Nat → List Char → Prop
  | content {x : Char} {R : List Char} (ink : isGap x = false) (sign : x ≠ '#') :
    Lead j (x :: R) 0 (x :: R)
  | stop (outermost : j = 0) : Lead j [] 0 []
  | comment {body T : List Char} {lines : Nat} {R : List Char} (line : ∀ c ∈ body, isBreakOrEnd c = false)
    (rest : Lead j T lines R) :
    Lead j ('#' :: (body ++ '\n' :: (List.replicate j ' ' ++ T))) (lines + 1) R

/-- Comment lines lead to what is below them. -/
theorem Lead.skip {cs : List Char} {j lines : Nat} {T R : List Char} (lead : Lead j T lines R)
    (line : Nat) (blocks : List Nat) (bare : Bool) {n : Noise} (located : Located cs T line n.index)
    (fuel : Nat) (enough : T.length < fuel) : ∃ index fresh,
      Lexer.skipBlanks? fuel (Spot.lexer ⟨T, line, j, true, blocks, bare, false⟩ n) =
        some (Spot.lexer ⟨R, line + lines, j, true, blocks, bare, false⟩ { n with index, fresh }) ∧
      Located cs R (line + lines) index := by
  induction lead generalizing line n fuel with
  | content ink sign =>
    obtain ⟨fuel, rfl⟩ : ∃ k, fuel = k + 1 := ⟨fuel - 1, by omega⟩
    exact ⟨n.index, n.fresh, skipBlanks?_content rfl ink sign fuel, located⟩
  | stop outermost =>
    obtain ⟨fuel, rfl⟩ : ∃ k, fuel = k + 1 := ⟨fuel - 1, by omega⟩
    exact ⟨n.index, n.fresh, skipBlanks?_end rfl fuel, located⟩
  | @comment body T lines R free rest ih =>
    simp only [List.length_cons, List.length_append, List.length_replicate] at enough
    obtain ⟨fuel, rfl⟩ : ∃ k, fuel = k + j + 1 + 1 := ⟨fuel - j - 2, by omega⟩
    have noFeed : '\n' ∉ '#' :: body := fun h => by
      rcases List.mem_cons.1 h with h | h
      · cases h
      · exact absurd (free _ h) (by decide)
    have below : Located cs T (line + 1) (n.index + (body.length + 1) + 1 + j) := by
      rw [← List.cons_append] at located
      have := (located.right noFeed).down.right (w := List.replicate j ' ') (by simp)
      simpa using this
    rw [skipBlanks?_comment rfl free, skipBlanks?_feed rfl, skipBlanks?_spaces rfl]
    obtain ⟨index, fresh, run, after⟩ := ih (line + 1) (n := { n with
      index := n.index + (body.length + 1) + 1 + j, fresh := true }) below fuel (by omega)
    refine ⟨index, fresh, ?_, by rw [Nat.add_comm lines, ← Nat.add_assoc]; exact after⟩
    rw [Nat.add_comm lines, ← Nat.add_assoc, ← run]
    simp [Spot.lexer, Spot.indent, Spot.indents, Mark.right, Mark.down]

/-- The end of a line leads to the content below it. -/
theorem Lead.skips_line {cs : List Char} {j lines : Nat} {T R : List Char} (lead : Lead j T lines R)
    (line column : Nat) (allowed : Bool) (blocks : List Nat) (bare : Bool) :
    Skips cs ⟨'\n' :: (List.replicate j ' ' ++ T), line, column, allowed, blocks, bare, false⟩
      ⟨R, line + 1 + lines, j, true, blocks, bare, false⟩ := by
  intro n located
  have below : Located cs T (line + 1) (n.index + 1 + j) := by
    simpa using located.down.right (w := List.replicate j ' ') (by simp)
  obtain ⟨index, fresh, run, after⟩ := lead.skip (line + 1) blocks bare (n := { n with
    index := n.index + 1 + j, fresh := true }) below (T.length + 2) (by omega)
  have fuel : (Spot.lexer ⟨'\n' :: (List.replicate j ' ' ++ T), line, column, allowed, blocks, bare, false⟩
      n).fuel = T.length + 2 + j + 1 := by
    simp [Lexer.fuel, Spot.lexer]; omega
  refine ⟨index, fresh, ?_, after⟩
  rw [fuel, skipBlanks?_feed rfl, skipBlanks?_spaces rfl, ← run]
  simp [Spot.lexer, Spot.indent, Spot.indents, Mark.right, Mark.down, Lexer.inFlow]

/-- The indentation of a line leads to the content of the line or below it. -/
theorem Lead.skips {cs : List Char} {j lines : Nat} {T R : List Char} (lead : Lead j T lines R)
    (line : Nat) (blocks : List Nat) (bare : Bool) :
    Skips cs ⟨T, line, j, true, blocks, bare, false⟩
      ⟨R, line + lines, j, true, blocks, bare, false⟩ := by
  intro n located
  exact lead.skip line blocks bare located _ (by simp [Lexer.fuel, Spot.lexer])

/-- Blanks lead to the content behind them. -/
theorem skips_spaces (cs : List Char) (k : Nat) {x : Char} (R : List Char) (ink : isGap x = false)
    (sign : x ≠ '#') (line column : Nat) (allowed : Bool) (blocks : List Nat) (bare flow : Bool) :
    Skips cs ⟨List.replicate k ' ' ++ x :: R, line, column, allowed, blocks, bare, flow⟩
      ⟨x :: R, line, column + k, allowed, blocks, bare, flow⟩ := by
  intro n located
  have fuel : (Spot.lexer ⟨List.replicate k ' ' ++ x :: R, line, column, allowed, blocks, bare, flow⟩
      n).fuel = R.length + 2 + 1 + k := by
    simp [Lexer.fuel, Spot.lexer]; omega
  refine ⟨n.index + k, n.fresh, ?_, by simpa using located.right (w := List.replicate k ' ') (by simp)⟩
  rw [fuel, skipBlanks?_spaces rfl, skipBlanks?_content rfl ink sign]
  simp [Spot.lexer, Spot.indent, Spot.indents, Mark.right]

end LayeredConfig.Yaml
