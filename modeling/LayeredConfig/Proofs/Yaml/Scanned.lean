import LayeredConfig.Proofs.Yaml.Fetching

/-!
# Scalars and keys as tokens

A scalar at the end of a line leads to the content below it. A key is two steps: its scalar waits
until the colon is read, then the token of the key goes in front of it, and that of the mapping if
the key is the first one.
-/

namespace LayeredConfig.Yaml

open Quoting (PlainForm Inscription startIndicators)

variable {cs R X : List Char} {line column : Nat} {allowed bare : Bool} {blocks : List Nat}

/-! ## Which scalar begins -/

theorem fetchAt_plain {l : Lexer} {c : Char} (peek : l.cursor.peek = c) (block : l.inFlow = false)
    (start : startIndicators.contains c = false)
    (alone : c = '?' ∨ c = ':' ∨ c = '-' → isGap (l.cursor.peek 1) = false) :
    l.fetchAt = l.fetchPlain := by
  have other {d : Char} (hd : startIndicators.contains d = true) : c ≠ d := by
    rintro rfl
    rw [start] at hd
    cases hd
  have dash : (c == '-' && isGap (l.cursor.peek 1)) = false := by
    by_cases h : c = '-' <;> simp [h, alone]
  have question : (c == '?' && isGap (l.cursor.peek 1)) = false := by
    by_cases h : c = '?' <;> simp [h, alone]
  have colon : (c == ':' && l.atValue) = false := by
    by_cases h : c = ':' <;> simp [h, alone, Lexer.atValue, block]
  unfold Lexer.fetchAt
  simp only [peek, dash, question, colon, beq_eq_false_iff_ne.2 (other (d := '[') rfl),
    beq_eq_false_iff_ne.2 (other (d := '{') rfl), beq_eq_false_iff_ne.2 (other (d := ']') rfl),
    beq_eq_false_iff_ne.2 (other (d := '}') rfl), beq_eq_false_iff_ne.2 (other (d := ',') rfl),
    beq_eq_false_iff_ne.2 (other (d := '*') rfl), beq_eq_false_iff_ne.2 (other (d := '&') rfl),
    beq_eq_false_iff_ne.2 (other (d := '!') rfl), beq_eq_false_iff_ne.2 (other (d := '|') rfl),
    beq_eq_false_iff_ne.2 (other (d := '>') rfl), beq_eq_false_iff_ne.2 (other (d := '\'') rfl),
    beq_eq_false_iff_ne.2 (other (d := '"') rfl), beq_eq_false_iff_ne.2 (other (d := '%') rfl),
    beq_eq_false_iff_ne.2 (other (d := '@') rfl), beq_eq_false_iff_ne.2 (other (d := '\x60') rfl),
    Bool.false_and, Bool.or_self, Bool.false_eq_true, if_false]

theorem fetchAt_single {l : Lexer} (h : l.cursor.peek = '\'') : l.fetchAt = l.fetchQuoted true := by
  simp [Lexer.fetchAt, h]

theorem fetchAt_double {l : Lexer} (h : l.cursor.peek = '"') : l.fetchAt = l.fetchQuoted false := by
  simp [Lexer.fetchAt, h]

theorem fetchPlain_eq {l l' : Lexer} {m : Mark} {kind : TokenKind} {c : Cursor}
    (saved : { l.saveKey with keyAllowed := false : Lexer }.unrollBare = l')
    (read : l'.cursor.plainScalar? l'.surrounding = some (⟨m, kind⟩, c)) : l.fetchPlain =
      some ({ l' with cursor := c, keyAllowed := l'.keyAllowed || c.fresh }.push kind m) := by
  unfold Lexer.fetchPlain
  rw [saved]
  simp [read]

theorem fetchQuoted_eq {l l₁ l₂ l₃ : Lexer} {single : Bool} {m : Mark} {kind : TokenKind} {c : Cursor}
    (saved : { l.saveKey with keyAllowed := false : Lexer } = l₁)
    (read : l₁.cursor.quotedScalar? single l₁.surrounding = some (⟨m, kind⟩, c))
    (moved : { l₁ with cursor := c : Lexer } = l₂) (skipped : Lexer.skipBlanks? l₂.fuel l₂ = some l₃) :
    l.fetchQuoted single = some ({ l₃ with adjacent := l₃.mark.index }.push kind m) := by
  unfold Lexer.fetchQuoted
  rw [saved]
  simp [read, moved, skipped]

variable (line column allowed blocks) in
theorem unrollBare_lexer (rest : List Char) (n : Noise) :
    (Spot.lexer ⟨rest, line, column, allowed, blocks, bare, false⟩ n).unrollBare =
      Spot.lexer ⟨rest, line, column, allowed, blocks, false, false⟩ n := by
  cases bare <;> cases blocks <;> rfl

/-! ## What follows a scalar -/

theorem Lead.reached {j k : Nat} {T : List Char} (lead : Lead j T k R) : Lead j R 0 R := by
  induction lead with
  | content ink sign => exact .content ink sign
  | stop outermost => exact .stop outermost
  | comment _ _ ih => exact ih

/-- The content of a line begins with no blank. -/
theorem Lead.head {j k : Nat} {T : List Char} (lead : Lead j T k R) :
    isBlank (T.headD '\x00') = false ∧ isBreak (T.headD '\x00') = false := by
  cases lead with
  | content ink sign =>
    simp only [isGap, isBreakOrEnd, Bool.or_eq_false_iff] at ink
    exact ⟨ink.1, ink.2.1⟩
  | stop | comment => exact ⟨rfl, rfl⟩

theorem Lead.length_le {j k : Nat} {T : List Char} (lead : Lead j T k R) : R.length ≤ T.length := by
  induction lead with
  | content | stop => exact Nat.le_refl _
  | comment _ _ ih => simp only [List.length_cons, List.length_append]; omega

/-- What stands behind a scalar: the colon of a key with a gap, or the end of its line. The line
below begins in column `j`, and `k` comment lines lead from there to the content `R`. -/
inductive Follow where
  | colon (gap : Char) (rest : List Char)
  | below (j k : Nat) (T R : List Char)

/-- The text that stands behind a scalar. -/
def Follow.text : Follow → List Char
  | .colon gap rest => ':' :: gap :: rest
  | .below j _ T _ => '\n' :: (List.replicate j ' ' ++ T)

/-- What may stand behind a scalar within open blocks. -/
def Follow.Fits (blocks : List Nat) : Follow → Prop
  | .colon gap _ => isGap gap
  | .below j k T R => Lead j T k R ∧ (j : Int) ≤ Spot.top blocks

/-- A scalar leads to the colon behind it or, at the end of its line, to the content below or a
comment above that content. -/
inductive Behind (blocks : List Nat) (bare : Bool) (line column : Nat) : Follow → Spot → Prop
  | colon (g : Char) (X : List Char) {b : Bool} (bared : b = false ∨ b = bare) :
    Behind blocks bare line column (.colon g X) ⟨':' :: g :: X, line, column, false, blocks, b, false⟩
  | below {j k k' k'' : Nat} (T : List Char) {T' R : List Char} (rest : Lead j T' k'' R)
    (total : k' + k'' = k) (b : Bool) :
    Behind blocks bare line column (.below j k T R) ⟨T', line + 1 + k', j, true, blocks, b, false⟩

/-- The noise behind a scalar. -/
def Noise.scanned (n : Noise) (s : Spot) (index : Nat) (fresh : Bool) (adjacent : Nat)
    (kind : TokenKind) : Noise :=
  { s.saved n with
    index, fresh, adjacent, waiting := n.waiting ++ [⟨⟨n.index, s.line, s.column⟩, kind⟩] }

theorem fetchPlain_lexer (line column : Nat) (allowed bare : Bool) {text : List Char} (form : PlainForm text)
    {Y : Follow} (follows : Y.Fits blocks) (inside : Spot.top blocks ≤ column)
    (edge : column = 0 → text.head? ≠ some '-' ∧ text.head? ≠ some '.') (n : Noise)
    (located : Located cs (text ++ Y.text) line n.index) :
    ∃ s' index fresh, Behind blocks bare line (column + text.length) Y s' ∧
      Located cs s'.rest s'.line index ∧
      (Spot.lexer ⟨text ++ Y.text, line, column, allowed, blocks, bare, false⟩ n).fetchPlain =
        some (s'.lexer (n.scanned ⟨text ++ Y.text, line, column, allowed, blocks, bare, false⟩ index fresh
          n.adjacent (.scalar .plain (String.ofList text)))) := by
  obtain ⟨c, r, nonempty, ink, -⟩ := form.begins
  have begins : text.head? ≠ some ' ' := by
    rw [nonempty]
    rintro ⟨⟩
    cases ink
  have saved := (congrArg (fun l : Lexer => Lexer.unrollBare { l with keyAllowed := false })
    (saveKey_lexer ⟨text ++ Y.text, line, column, allowed, blocks, bare, false⟩ n)).trans
      (unrollBare_lexer line column false blocks (text ++ Y.text) _)
  have read {c : Cursor}
      (stop : PlainEnd ⟨Spot.top blocks, false⟩ (Mark.right ⟨n.index, line, column⟩ text.length) Y.text c) :=
    Cursor.plainScalar?_eq (f := n.fresh) form.toPlainText begins (by simp [nonempty]) rfl inside edge stop
  have after := located.right (Inscription.plain form).line
  cases Y with
  | colon g X =>
    exact ⟨_, _, _, .colon g X (.inl rfl), after, (fetchPlain_eq saved (read (.colon follows X))).trans rfl⟩
  | below j k T R =>
    obtain ⟨lead, outer⟩ := follows
    have below : Located cs T (line + 1) (n.index + text.length + 1 + j) := by
      simpa using after.down.right (w := List.replicate j ' ') (by simp)
    refine ⟨_, _, true, .below T lead (Nat.zero_add k) false, below,
      (fetchPlain_eq saved (read (.line j lead.head.1 lead.head.2 outer))).trans ?_⟩
    simp [Noise.scanned, Spot.lexer, Mark.right, Mark.down, Lexer.push, Spot.indent, Spot.indents, Spot.saved]

theorem fetchQuoted_lexer (line column : Nat) (allowed bare : Bool) {text : List Char} {single : Bool}
    {spell : Char → List Char}
    (spells : Cursor.Spells single spell text) {q : Char} (quote : q = if single then '\'' else '"')
    {Y : Follow} (line' : '\n' ∉ q :: (text.flatMap spell ++ [q])) (follows : Y.Fits blocks)
    (inside : Spot.top blocks + 1 ≤ column ∨ Spot.top blocks = column ∧ bare = false) (n : Noise)
    (located : Located cs (q :: (text.flatMap spell ++ [q]) ++ Y.text) line n.index) :
    ∃ s' index fresh adjacent,
      Behind blocks bare line (column + (q :: (text.flatMap spell ++ [q])).length) Y s' ∧
      Located cs s'.rest s'.line index ∧
      (Spot.lexer ⟨q :: (text.flatMap spell ++ [q]) ++ Y.text, line, column, allowed, blocks, bare, false⟩
        n).fetchQuoted single = some (s'.lexer (n.scanned
          ⟨q :: (text.flatMap spell ++ [q]) ++ Y.text, line, column, allowed, blocks, bare, false⟩ index fresh
          adjacent (.scalar (if single then .singleQuoted else .doubleQuoted) (String.ofList text)))) := by
  have length : (q :: (text.flatMap spell ++ [q])).length = (text.flatMap spell).length + 2 := by
    simp only [List.length_cons, List.length_append, List.length_nil]
  have after := located.right line'
  have start (x : Char) (X : List Char) : q :: (text.flatMap spell ++ [q]) ++ x :: X =
      q :: (text.flatMap spell ++ q :: x :: X) := by simp
  rw [length] at after ⊢
  have saved := congrArg (fun l : Lexer => { l with keyAllowed := false })
    (saveKey_lexer ⟨q :: (text.flatMap spell ++ [q]) ++ Y.text, line, column, allowed, blocks, bare, false⟩ n)
  have reached : Spot.indent ⟨Y.text, line, column, allowed, blocks, bare, false⟩ ≤ column := by
    rw [Spot.indent]
    rcases inside with inside | ⟨inside, rfl⟩
    · split <;> simp <;> omega
    · simp; omega
  have read {x : Char} {X : List Char} (next : x = ':' ∨ x = '\n') := Cursor.quotedScalar?_eq (X := X)
    (f := n.fresh) spells quote next (s := ⟨Spot.indent ⟨Y.text, line, column, allowed, blocks, bare, false⟩, false⟩)
    rfl (m := ⟨n.index, line, column⟩) reached
  have skipped {s' : Spot}
      (skips : Skips cs ⟨Y.text, line, column + ((text.flatMap spell).length + 2), false, blocks, bare, false⟩ s') :=
    skips { Spot.saved ⟨q :: (text.flatMap spell ++ [q]) ++ Y.text, line, column, allowed, blocks, bare, false⟩ n with
      index := n.index + ((text.flatMap spell).length + 2), fresh := false } after
  cases Y with
  | colon g X =>
    obtain ⟨index, fresh, skip, behind⟩ := skipped (skips_spaces _ 0 (x := ':') (g :: X) rfl (by decide) _ _ _ _ _ _)
    rw [Follow.text, start] at saved ⊢
    refine ⟨_, index, fresh, _, .colon g X (.inr rfl), behind, (fetchQuoted_eq saved (read (.inl rfl)) rfl skip).trans
      rfl⟩
  | below j k T R =>
    obtain ⟨lead, outer⟩ := follows
    obtain ⟨index, fresh, skip, behind⟩ := skipped (lead.skips_line _ _ _ _ _)
    rw [Follow.text, start] at saved ⊢
    exact ⟨_, index, fresh, _, .below T lead.reached (Nat.add_zero k) bare, behind,
      (fetchQuoted_eq saved (read (.inr rfl)) rfl skip).trans rfl⟩

/-- What stands at the margin is no mark of a document. -/
def Unmarked (column : Nat) (W : List Char) : Prop :=
  column = 0 → ∀ x ∈ W.head?, x ≠ '%' ∧ x ≠ '-' ∧ x ≠ '.'

/-- **A scalar fetched.** Its token waits, and a key may begin with it. -/
theorem fetchHere_scalar (line column : Nat) (allowed bare : Bool) {text W : List Char} {style : Style}
    (ins : Inscription text style W) {Y : Follow} (follows : Y.Fits blocks)
    (inside : Spot.top blocks + 1 ≤ column ∨ Spot.top blocks = column ∧ bare = false)
    (edge : Unmarked column W) (n : Noise) (located : Located cs (W ++ Y.text) line n.index) :
    ∃ s' index fresh adjacent, Behind blocks bare line (column + W.length) Y s' ∧
      Located cs s'.rest s'.line index ∧
      (Spot.lexer ⟨W ++ Y.text, line, column, allowed, blocks, bare, false⟩ n).fetchHere =
        some (s'.lexer (n.scanned ⟨W ++ Y.text, line, column, allowed, blocks, bare, false⟩ index fresh
          adjacent (.scalar style (String.ofList text)))) := by
  have free := ins.line
  cases ins with
  | plain form =>
    obtain ⟨c, r, rfl, ink, start, alone⟩ := form.begins
    have edge : column = 0 → c ≠ '%' ∧ c ≠ '-' ∧ c ≠ '.' := fun h => edge h c rfl
    obtain ⟨s', index, fresh, behind, below, fetched⟩ := fetchPlain_lexer line column
      allowed bare form follows (by omega) (fun h => by simpa using (edge h).2) n located
    refine ⟨s', index, fresh, _, behind, below, (fetchHere_eq n ink inside edge).trans
      ((fetchAt_plain (c := c) rfl rfl start fun special => ?_).trans fetched)⟩
    obtain ⟨x, r', rfl, gap⟩ := alone special
    exact gap
  | single spells =>
    obtain ⟨s', index, fresh, adjacent, behind, below, fetched⟩ := fetchQuoted_lexer line column
      allowed bare spells (q := '\'') rfl free follows inside n located
    exact ⟨s', index, fresh, _, behind, below, (fetchHere_eq n rfl inside fun _ => by decide).trans
      ((fetchAt_single rfl).trans fetched)⟩
  | double spells =>
    obtain ⟨s', index, fresh, adjacent, behind, below, fetched⟩ := fetchQuoted_lexer line column
      allowed bare spells (q := '"') rfl free follows inside n located
    exact ⟨s', index, fresh, _, behind, below, (fetchHere_eq n rfl inside fun _ => by decide).trans
      ((fetchAt_double rfl).trans fetched)⟩

/-- The end of a scalar's line: the blocks close that end at the column of the line below. -/
def Spot.below (R : List Char) (line j : Nat) (blocks : List Nat) : Spot :=
  ⟨R, line, j, true, blocks.dropWhile (j < ·), false, false⟩

theorem unrolls_below {j : Nat} (outer : (j : Int) ≤ Spot.top blocks) :
    Unrolls ⟨R, line, j, true, blocks, bare, false⟩ (closings blocks j) (Spot.below R line j blocks) := by
  have same : Spot.unrolled ⟨R, line, j, true, blocks, bare, false⟩ = Spot.below R line j blocks := by
    have closed : decide (Spot.top blocks < j) = false := by simpa using outer
    simp [Spot.unrolled, Spot.below, closed]
  exact same ▸ unrolls_block rfl

/-- **A scalar at the end of a line.** -/
theorem emits_scalar {text W : List Char} {style : Style} (ins : Inscription text style W) {j k : Nat}
    {T : List Char} (lead : Lead j T k R) (outer : (j : Int) ≤ Spot.top blocks)
    (inner : Spot.top blocks + 1 < column) :
    Emits cs ⟨W ++ '\n' :: (List.replicate j ' ' ++ T), line, column, allowed, blocks, bare, false⟩
      ((line, .scalar style (String.ofList text)) :: closings blocks j)
      (Spot.below R (line + 1 + k) j blocks) := by
  intro n fits
  obtain ⟨s', index, fresh, adjacent, behind, located, fetched⟩ := fetchHere_scalar line column
    allowed bare ins (Y := .below j k T R) ⟨lead, outer⟩ (.inl (by omega)) (fun h => by omega) n fits.located
  rw [Follow.text] at fetched
  have saved := fits_saved inner fits
  have fits' : (n.scanned _ index fresh adjacent (.scalar style (String.ofList text))).Fits cs s' :=
    ⟨located, saved.place, saved.inner⟩
  cases behind with
  | @below _ _ k' k'' _ T' _ rest total b =>
    obtain ⟨ts, n', fits'', run, told⟩ := (rest.skips (line + 1 + k') blocks b).tokens
      (unrolls_below outer) ⟨rfl, rfl⟩ fits'
    refine ⟨1, n', ts, by rw [← total, ← Nat.add_assoc]; exact fits'', fun fuel => ?_, ?_, ?_⟩
    · rw [Lexer.tokensHere, fetched, ← total, ← Nat.add_assoc]
      exact run fuel
    · rw [told]
      simp [Noise.scanned, shown, fits.located.lineOf]
    · have := lead.length_le
      simp only [Spot.below, List.length_append, List.length_cons]
      omega

/-! ## A key -/

/-- A rest that is not empty tells where it begins. -/
theorem Located.index_eq {W Y : List Char} {index index' line line' : Nat}
    (h : Located cs (W ++ Y) line index) (h' : Located cs Y line' index') (nonempty : Y ≠ []) :
    index' = index + W.length := by
  have length := congrArg List.length h.1
  have length' := congrArg List.length h'.1
  rw [List.length_drop, List.length_append] at length
  rw [List.length_drop] at length'
  have := List.length_pos_iff.2 nonempty
  omega

theorem unroll_inside {s : Spot} (block : s.flow = false) (inside : Spot.top s.blocks < s.column)
    (n : Noise) : (s.lexer n).unroll s.column = s.lexer n := by
  obtain ⟨ends, unrolled, shows⟩ := unroll_lexer n block
  have open' : s.blocks.takeWhile (s.column < ·) = [] ∧ s.blocks.dropWhile (s.column < ·) = s.blocks := by
    cases hb : s.blocks with
    | nil => simp
    | cons b blocks =>
      rw [hb] at inside
      have kept : ¬s.column < b := by simp at inside; omega
      simp [kept]
  have none : ends = [] := by simpa [closings, open'.1] using shows []
  have same : s.unrolled = s := by
    cases s
    simp [Spot.unrolled, open'.2, inside]
  rw [unrolled, none, same, List.append_nil]

theorem fetchValue_eq {l l₁ : Lexer} {p : KeyPlace} (block : l.inFlow = false) (place : l.place = p)
    (possible : p.possible = true) (tab : l.skipInk.cursor.peek ≠ '\t')
    (keyed : (({ l with pairOpen := false : Lexer }.skipInk.insert p.number .key p.mark).roll p.mark.column
      (some p.number) .blockMappingStart l.mark).rollBare = l₁) : l.fetchValue =
        some ({ l₁.setPlace { l₁.place with possible := false } with keyAllowed := false }.push .value l.mark) := by
  have tab' : (({ l with pairOpen := false : Lexer }.skipInk).cursor.peek == '\t') = false :=
    beq_eq_false_iff_ne.2 tab
  have block' : (({ l with pairOpen := false : Lexer }.skipInk).insert p.number .key p.mark).pairOpen = false := rfl
  unfold Lexer.fetchValue
  simp only [block, place, possible, Bool.false_and, Option.bind_eq_bind, tab', Bool.false_eq_true, if_false,
    Option.bind_some, if_true, block', keyed]

theorem fetchAt_value {l : Lexer} (h : l.cursor.peek = ':') (gap : isGap (l.cursor.peek 1)) :
    l.fetchAt = l.fetchValue := by
  simp [Lexer.fetchAt, Lexer.atValue, h, gap]

/-- While a key waits, its scalar is the last waiting token. -/
def Noise.keyed (n : Noise) (index released : Nat) (front : List Token) (t : Token) (p : KeyPlace)
    (adjacent : Nat) : Noise :=
  { n with index, waiting := front ++ [t], released, place := p, inner := {}, adjacent }

/-- A token put before the scalar of a key. -/
theorem insert_keyed (s : Spot) (n : Noise) (index released : Nat) (front : List Token) (t : Token)
    (p : KeyPlace) (adjacent : Nat) (kind : TokenKind) (m : Mark) :
    (s.lexer (n.keyed index released front t p adjacent)).insert (released + front.length) kind m =
      s.lexer (n.keyed index released (front ++ [⟨m, kind⟩]) t p adjacent) := by
  have place : released + front.length - released = front.length := by omega
  simp [Lexer.insert, Spot.lexer, Noise.keyed, place]

/-- Two tokens put before the scalar of a key, the second one first. -/
theorem insert_keyed_first (s : Spot) (n : Noise) (index released : Nat) (front : List Token) (t u : Token)
    (p : KeyPlace) (adjacent : Nat) (kind : TokenKind) (m : Mark) :
    (s.lexer (n.keyed index released (front ++ [u]) t p adjacent)).insert (released + front.length) kind m =
      s.lexer (n.keyed index released (front ++ [⟨m, kind⟩, u]) t p adjacent) := by
  have place : released + front.length - released = front.length := by omega
  simp [Lexer.insert, Spot.lexer, Noise.keyed, place]

/-- The colon of a key: the tokens before its scalar, and where the lexer stands behind it. -/
theorem fetchHere_value {g : Char} (gap : isGap g) (tab : g ≠ '\t') {start line column colon : Nat}
    {after : List Nat} {opening : List (Nat × TokenKind)}
    (opens : Opens column [(line, .blockMappingStart)] blocks bare after opening)
    {b : Bool} (bared : b = false ∨ b = bare) (inside : column < colon) (n : Noise)
    (adjacent : Nat) {index released : Nat} {front : List Token} (t : Token) {p : KeyPlace}
    (possible : p.possible)
    (number : p.number = released + front.length) (mark : p.mark = ⟨start, line, column⟩)
    (located : Located cs (':' :: g :: X) line index) :
    ∃ ts, ts.map (shown cs) = opening ++ [(0, .key)] ∧
      (Spot.lexer ⟨':' :: g :: X, line, colon, false, blocks, b, false⟩
        (n.keyed index released front t p adjacent)).fetchHere =
      some (Spot.lexer ⟨g :: X, line, colon + 1, false, after, true, false⟩
        ((n.keyed (index + 1) released (front ++ ts) t { p with possible := false } adjacent).put (index + 1)
          [⟨⟨index, line, colon⟩, .value⟩])) := by
  have past : { Spot.lexer ⟨':' :: g :: X, line, colon, false, blocks, b, false⟩
      (n.keyed index released front t p adjacent) with pairOpen := false : Lexer }.skipInk =
      Spot.lexer ⟨g :: X, line, colon + 1, false, blocks, b, false⟩
        ({ n with fresh := false : Noise }.keyed (index + 1) released front t p adjacent) := rfl
  obtain ⟨ts, rolled, shows⟩ : ∃ ts,
      (Spot.lexer ⟨g :: X, line, colon + 1, false, blocks, b, false⟩
        ({ n with fresh := false : Noise }.keyed (index + 1) released (front ++ [⟨p.mark, .key⟩]) t p
          adjacent)).roll p.mark.column
          (some p.number) .blockMappingStart ⟨index, line, colon⟩ =
        Spot.lexer ⟨g :: X, line, colon + 1, false, after, false, false⟩
          ({ n with fresh := false : Noise }.keyed (index + 1) released (front ++ ts) t p adjacent) ∧
      ts.map (shown cs) = opening ++ [(0, .key)] := by
    rw [mark, number]
    cases opens with
    | begin bare deeper =>
      exact ⟨_, (roll_lexer _ _ deeper _ _ _ _).trans (insert_keyed_first ..), by
        simp [shown, located.lineOf]⟩
    | resume outer =>
      obtain rfl : b = false := bared.elim id id
      exact ⟨_, roll_same .., by simp [shown]⟩
  obtain ⟨nonempty, reached⟩ : after ≠ [] ∧ Spot.top blocks + 1 ≤ colon := by
    cases opens with
    | begin bare deeper => exact ⟨by simp, by omega⟩
    | resume outer => exact ⟨by simp, by simp; omega⟩
  have keyed := insert_keyed ⟨g :: X, line, colon + 1, false, blocks, b, false⟩ { n with fresh := false }
    (index + 1) released front t p
    adjacent .key p.mark
  rw [← number] at keyed
  have opened : (({ Spot.lexer ⟨':' :: g :: X, line, colon, false, blocks, b, false⟩
      (n.keyed index released front t p adjacent) with pairOpen := false : Lexer }.skipInk.insert p.number
        .key p.mark).roll p.mark.column (some p.number) .blockMappingStart ⟨index, line, colon⟩).rollBare =
      Spot.lexer ⟨g :: X, line, colon + 1, false, after, true, false⟩
        ({ n with fresh := false : Noise }.keyed (index + 1) released (front ++ ts) t p adjacent) := by
    rw [past, keyed, rolled, rollBare_lexer _ nonempty]
  refine ⟨ts, shows, (fetchHere_eq _ rfl (.inl reached) fun _ => by decide).trans ?_⟩
  exact Eq.trans (fetchAt_value rfl gap) (Eq.trans (fetchValue_eq rfl rfl possible tab opened) rfl)

theorem prepare_colon {g : Char} {b : Bool} (inside : Spot.top blocks < column) (n : Noise)
    (stays : (Spot.lexer ⟨':' :: g :: X, line, column, false, blocks, b, false⟩ n).dropStaleKeys =
      some (Spot.lexer ⟨':' :: g :: X, line, column, false, blocks, b, false⟩ n)) :
    (Spot.lexer ⟨':' :: g :: X, line, column, false, blocks, b, false⟩ n).prepare =
      some (Spot.lexer ⟨':' :: g :: X, line, column, false, blocks, b, false⟩ n) := by
  have skipped := skipBlanks?_content (l := Spot.lexer ⟨':' :: g :: X, line, column, false, blocks, b, false⟩ n)
    (x := ':') rfl rfl (by decide) ((g :: X).length + 2)
  have fuel : (Spot.lexer ⟨':' :: g :: X, line, column, false, blocks, b, false⟩ n).fuel =
    (g :: X).length + 2 + 1 := rfl
  rw [Lexer.prepare, fuel, skipped, Option.bind_eq_bind, Option.bind_some, stays, Option.bind_some]
  exact congrArg some (unroll_inside (s := ⟨':' :: g :: X, line, column, false, blocks, b, false⟩) rfl inside n)

/-- The tokens in front of a key's scalar are released, and the scalar waits for the colon. -/
theorem tokens_key (line : Nat) (g : Char) (colon : Nat) (b : Bool) (n : Noise) (fresh : Bool) (t : Token)
    (p : KeyPlace) (adjacent : Nat) (inside : Spot.top blocks < column)
    (possible : p.possible) (number : p.number = n.released + n.waiting.length) (same : p.mark.line = line)
    (short : colon ≤ p.mark.index + 1024) :
    ∃ ts front released, n.waiting = ts ++ front ∧ p.number = released + front.length ∧
      ∀ fuel, (Spot.lexer ⟨':' :: g :: X, line, column, false, blocks, b, false⟩
        { n with index := colon, fresh, waiting := n.waiting ++ [t], adjacent, place := p }).tokens (fuel + 1) =
        ts ++ (Spot.lexer ⟨':' :: g :: X, line, column, false, blocks, b, false⟩
          ({ n with fresh : Noise }.keyed colon released front t p adjacent)).tokensHere fuel := by
  have stays (waiting : List Token) (released : Nat) (inner : KeyPlace) :
      (Spot.lexer ⟨':' :: g :: X, line, column, false, blocks, b, false⟩
        { n with index := colon, fresh, waiting, released, adjacent, place := p, inner }).dropStaleKeys =
      some (Spot.lexer ⟨':' :: g :: X, line, column, false, blocks, b, false⟩
        { n with index := colon, fresh, waiting, released, adjacent, place := p, inner }) := by
    have near : ¬(p.mark.line < line ∨ p.mark.index + 1024 < colon) := by omega
    simp [Lexer.dropStaleKeys, Spot.lexer, Lexer.mark, near]
  obtain ⟨ts, kept, split, run, waits⟩ := Lexer.release_eq
    (Spot.lexer ⟨':' :: g :: X, line, column, false, blocks, b, false⟩
      { n with index := colon, fresh, waiting := n.waiting ++ [t], adjacent, place := p })
    (by simp [Spot.lexer, Lexer.Waits, number])
  have room : n.released + ts.length ≤ p.number := waits p (by simp [Spot.lexer]) possible
  obtain ⟨front, before, rfl⟩ : ∃ front, n.waiting = ts ++ front ∧ kept = front ++ [t] := by
    rcases List.append_eq_append_iff.1 (show n.waiting ++ [t] = ts ++ kept from split) with
      ⟨more, rfl, h⟩ | ⟨front, h, rfl⟩
    · obtain rfl : more = [] := by
        rw [← List.length_eq_zero_iff]
        rw [List.length_append] at room
        omega
      exact ⟨[], by simp, h.symm⟩
    · exact ⟨front, h, rfl⟩
  have prepared := prepare_colon (g := g) (X := X) (b := b) inside
    ({ n with fresh : Noise }.keyed colon (n.released + ts.length) front t p adjacent)
    (stays (front ++ [t]) (n.released + ts.length) {})
  exact ⟨ts, front, n.released + ts.length, before, by rw [number, before, List.length_append]; omega,
    Lexer.tokens_succ (stays _ _ n.inner) run rfl prepared⟩

variable (cs) in
/-- **A key.** Its scalar and the colon, with what goes in front of them. -/
theorem emits_key {text W : List Char} {style : Style} (ins : Inscription text style W)
    (edge : Unmarked column W) (short : W.length ≤ 1024) {after : List Nat}
    {opening : List (Nat × TokenKind)}
    (opens : Opens column [(line, .blockMappingStart)] blocks bare after opening) {g : Char}
    (gap : isGap g) (tab : g ≠ '\t') {s₁ s' : Spot}
    (skips : Skips cs ⟨g :: X, line, column + W.length + 1, false, after, true, false⟩ s₁)
    (unrolls : Unrolls s₁ [] s') (same : s'.rest = s₁.rest ∧ s'.line = s₁.line)
    (shorter : s'.rest.length ≤ X.length + 1) :
    Emits cs ⟨W ++ ':' :: g :: X, line, column, true, blocks, bare, false⟩
      (opening ++ [(0, .key), (line, .scalar style (String.ofList text)), (0, .value)]) s' := by
  intro n fits
  have inside : Spot.top blocks + 1 ≤ column ∨ Spot.top blocks = column ∧ bare = false := by
    cases opens with
    | begin bare deeper => exact .inl deeper
    | resume outer => exact .inr ⟨rfl, rfl⟩
  obtain ⟨s₂, index, fresh, adjacent, behind, located, fetched⟩ := fetchHere_scalar line column true bare ins
    (Y := .colon g X) gap inside edge n fits.located
  rw [Follow.text] at fetched
  obtain ⟨x, W', nonempty, -⟩ := ins.begins
  have longer : 0 < W.length := by rw [nonempty]; exact Nat.succ_pos _
  cases behind with
  | @colon _ _ b bared =>
    have colon : index = n.index + W.length := Located.index_eq fits.located located (by simp)
    obtain ⟨ts, front, released, before, number, waits⟩ := tokens_key (X := X) line g index b n fresh
      ⟨⟨n.index, line, column⟩, .scalar style (String.ofList text)⟩
      (Spot.keyPlace ⟨W ++ ':' :: g :: X, line, column, true, blocks, bare, false⟩ n) adjacent
      (show Spot.top blocks < ((column + W.length : Nat) : Int) by omega) rfl rfl rfl
      (by simp [Spot.keyPlace]; omega)
    obtain ⟨us, shows, valued⟩ := fetchHere_value (X := X) gap tab opens bared
      (show column < column + W.length by omega) { n with fresh } adjacent
      ⟨⟨n.index, line, column⟩, .scalar style (String.ofList text)⟩ rfl number rfl located
    have after_value : Located cs (g :: X) line (index + 1) := located.right (w := [':']) (by simp)
    have fits₃ : Noise.Fits (Noise.put (Noise.keyed { n with fresh } (index + 1) released (front ++ us)
        ⟨⟨n.index, line, column⟩, .scalar style (String.ofList text)⟩
        { Spot.keyPlace ⟨W ++ ':' :: g :: X, line, column, true, blocks, bare, false⟩ n with possible := false }
        adjacent) (index + 1) [⟨⟨index, line, column + W.length⟩, .value⟩]) cs
        ⟨g :: X, line, column + W.length + 1, false, after, true, false⟩ :=
      ⟨after_value, KeyPlace.idle_forget _ _, KeyPlace.idle_default _⟩
    obtain ⟨ts', n', fits', run, told⟩ := skips.tokens unrolls same fits₃
    refine ⟨2, n', ts ++ ts', fits', fun fuel => ?_, ?_, ?_⟩
    · rw [Lexer.tokensHere, fetched, List.append_assoc, ← run fuel]
      refine (waits (fuel + 1)).trans ?_
      rw [Lexer.tokensHere, valued]
    · rw [List.append_assoc, List.map_append, told, before]
      simp [Noise.put, Noise.keyed, shown, shows, fits.located.lineOf]
    · rw [List.length_append, List.length_cons, List.length_cons]
      omega

end LayeredConfig.Yaml
