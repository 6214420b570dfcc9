import LayeredConfig.Yaml.Token.Scalar

/-!
# Reading what stands between quotes

A quoted scalar is read word by word, with the blanks between the words kept as they are. `Spelled`
says that some characters between quotes are read as one: a character as itself, or an escape. A
text that is spelled character by character, its blanks as themselves, is read back whole
(`quotedScalar?_eq`).
-/

namespace LayeredConfig.Yaml

/-- The mark that many characters further on the same line. -/
def Mark.right (m : Mark) (count : Nat) : Mark :=
  { m with index := m.index + count, column := m.column + count }

/-- The mark past a line feed. -/
def Mark.down (m : Mark) : Mark := { index := m.index + 1, line := m.line + 1, column := 0 }

namespace Mark

@[simp] theorem right_zero (m : Mark) : m.right 0 = m := rfl

@[simp] theorem right_right (m : Mark) (a b : Nat) : (m.right a).right b = m.right (a + b) := by
  simp only [right, Nat.add_assoc]

@[simp] theorem right_line (m : Mark) (a : Nat) : (m.right a).line = m.line := rfl

@[simp] theorem right_column (m : Mark) (a : Nat) : (m.right a).column = m.column + a := rfl

@[simp] theorem right_index (m : Mark) (a : Nat) : (m.right a).index = m.index + a := rfl

@[simp] theorem down_line (m : Mark) : m.down.line = m.line + 1 := rfl

@[simp] theorem down_column (m : Mark) : m.down.column = 0 := rfl

@[simp] theorem down_index (m : Mark) : m.down.index = m.index + 1 := rfl

end Mark

namespace Cursor

variable {R X : List Char} {m : Mark} {f : Bool}

@[simp] theorem peek_cons (x : Char) : peek ⟨x :: R, m, f⟩ = x := rfl

@[simp] theorem peek_cons_succ (x : Char) (n : Nat) :
    peek ⟨x :: R, m, f⟩ (n + 1) = peek ⟨R, m, f⟩ n := rfl

@[simp] theorem peek_nil (n : Nat) : peek ⟨[], m, f⟩ n = '\x00' := rfl

theorem skip_append (w : List Char) : skip ⟨w ++ R, m, f⟩ w.length = ⟨R, m.right w.length, f⟩ := by
  rw [skip, List.drop_left, Mark.right]

theorem skipInk_append (w : List Char) :
    skipInk ⟨w ++ R, m, f⟩ w.length = ⟨R, m.right w.length, false⟩ := by
  rw [skipInk, skip_append]

@[simp] theorem skip_cons (x : Char) : skip ⟨x :: R, m, f⟩ = ⟨R, m.right 1, f⟩ := rfl

@[simp] theorem skipInk_cons (x : Char) : skipInk ⟨x :: R, m, f⟩ = ⟨R, m.right 1, false⟩ := rfl

@[simp] theorem skipBreak_feed : skipBreak ⟨'\n' :: R, m, f⟩ = ⟨R, m.down, true⟩ := rfl

/-! ## Words and the blanks between them -/

/-- Between quotes the characters `e` are read as the character `c`. -/
structure Spelled (single : Bool) (c : Char) (e : List Char) : Prop where
  ink : ∃ x e', e = x :: e' ∧ isGap x = false
  line : '\n' ∉ e
  read : ∀ fuel R m text, quotedWord? single (fuel + 1) ⟨e ++ R, m, false⟩ text =
    quotedWord? single fuel ⟨R, m.right e.length, false⟩ (c :: text)

variable {single : Bool} {spell : Char → List Char}

theorem quotedWord?_append {w : List Char} (hw : ∀ c ∈ w, Spelled single c (spell c)) (fuel : Nat)
    (m : Mark) (text : List Char) :
    quotedWord? single (fuel + w.length) ⟨w.flatMap spell ++ R, m, false⟩ text =
      quotedWord? single fuel ⟨R, m.right (w.flatMap spell).length, false⟩ (w.reverse ++ text) := by
  induction w generalizing m text with
  | nil => rfl
  | cons c w ih =>
    rw [List.flatMap_cons, List.append_assoc, List.length_cons, ← Nat.add_assoc,
      (hw c List.mem_cons_self).read, ih fun d hd => hw d (List.mem_cons_of_mem _ hd),
      Mark.right_right, List.length_append, List.reverse_cons, List.append_assoc]
    rfl

theorem quotedGap?_spaces (indent : Int) (n fuel : Nat) (m : Mark) (blanks : List Char) {x : Char}
    (ink : isGap x = false) :
    quotedGap? indent false (fuel + n + 1) ⟨List.replicate n ' ' ++ x :: R, m, f⟩ { blanks } =
      some ({ blanks := List.replicate n ' ' ++ blanks }, ⟨x :: R, m.right n, f⟩) := by
  induction n generalizing m blanks with
  | zero =>
    have ⟨blank, stop, _⟩ : isBlank x = false ∧ isBreak x = false ∧ isEnd x = false := by
      simpa [isGap, isBreakOrEnd] using ink
    simp [quotedGap?, blank, stop]
  | succ n ih =>
    have next := ih (m.right 1) (' ' :: blanks)
    rw [Mark.right_right, Nat.add_comm 1, List.append_cons _ ' ', ← List.replicate_succ',
      List.replicate_succ] at next
    rw [List.replicate_succ, List.cons_append, ← Nat.add_assoc, quotedGap?]
    simpa [show isBlank ' ' = true from rfl] using next

end Cursor

/-- A text is a word, or a word and blanks before a text that begins with no blank. -/
theorem exists_word (cs : List Char) : ∃ w, (∀ c ∈ w, c ≠ ' ') ∧
    (cs = w ∨ ∃ n cs', cs = w ++ (List.replicate (n + 1) ' ' ++ cs') ∧ cs'.head? ≠ some ' ') := by
  induction cs with
  | nil => exact ⟨[], by simp, .inl rfl⟩
  | cons c cs ih =>
    obtain ⟨w, hw, split⟩ := ih
    by_cases hc : c = ' '
    · subst hc
      refine ⟨[], by simp, .inr ?_⟩
      cases w with
      | nil =>
        rcases split with rfl | ⟨n, cs', rfl, next⟩
        · exact ⟨0, [], rfl, by simp⟩
        · exact ⟨n + 1, cs', rfl, next⟩
      | cons d w =>
        refine ⟨0, cs, rfl, ?_⟩
        rcases split with rfl | ⟨n, cs', rfl, -⟩ <;> simpa using hw d List.mem_cons_self
    · refine ⟨c :: w, by simpa [hc] using hw, split.imp (congrArg _) ?_⟩
      rintro ⟨n, cs', rfl, next⟩
      exact ⟨n, cs', rfl, next⟩

/-- Induction over the words of a text. -/
theorem words_induction {P : List Char → Prop} (last : ∀ w, (∀ c ∈ w, c ≠ ' ') → P w)
    (next : ∀ w n cs, (∀ c ∈ w, c ≠ ' ') → cs.head? ≠ some ' ' → P cs →
      P (w ++ (List.replicate (n + 1) ' ' ++ cs))) (cs : List Char) : P cs := by
  induction size : cs.length using Nat.strongRecOn generalizing cs with
  | ind length ih =>
    obtain ⟨w, hw, rfl | ⟨n, cs', rfl, head⟩⟩ := exists_word cs
    · exact last _ hw
    · refine next w n cs' hw head (ih _ ?_ cs' rfl)
      simp only [List.length_append, List.length_replicate] at size
      omega

namespace Cursor

variable {X : List Char} {f single : Bool} {spell : Char → List Char}

/-- A blank that stands for itself, any other character as it is spelled. -/
def Spells (single : Bool) (spell : Char → List Char) (cs : List Char) : Prop :=
  spell ' ' = [' '] ∧ ∀ c ∈ cs, c ≠ ' ' → Spelled single c (spell c)

namespace Spells

variable {cs ds : List Char}

theorem left (h : Spells single spell (cs ++ ds)) : Spells single spell cs :=
  ⟨h.1, fun c hc => h.2 c (List.mem_append_left _ hc)⟩

theorem right (h : Spells single spell (cs ++ ds)) : Spells single spell ds :=
  ⟨h.1, fun c hc => h.2 c (List.mem_append_right _ hc)⟩

theorem spaces (h : Spells single spell cs) (n : Nat) :
    (List.replicate n ' ').flatMap spell = List.replicate n ' ' := by
  induction n with
  | zero => rfl
  | succ n ih => rw [List.replicate_succ, List.flatMap_cons, ih, h.1]; rfl

theorem length_le (h : Spells single spell cs) : cs.length ≤ (cs.flatMap spell).length := by
  induction cs with
  | nil => exact Nat.le_refl _
  | cons c cs ih =>
    have rest := ih ⟨h.1, fun d hd => h.2 d (List.mem_cons_of_mem _ hd)⟩
    have one : 0 < (spell c).length := by
      by_cases hc : c = ' '
      · rw [hc, h.1]; decide
      · obtain ⟨x, e, he, -⟩ := (h.2 c List.mem_cons_self hc).ink
        rw [he]; simp
    rw [List.flatMap_cons, List.length_append, List.length_cons]
    omega

/-- What is left of a spelled text begins with no end and, unless it begins with a blank, no gap. -/
theorem head (h : Spells single spell cs) {q : Char} (quote : isGap q = false) :
    ∃ x R, cs.flatMap spell ++ q :: X = x :: R ∧ isEnd x = false ∧
      (cs.head? ≠ some ' ' → isGap x = false) := by
  have noEnd {x : Char} (hx : isGap x = false) : isEnd x = false := by
    simp_all [isGap, isBreakOrEnd]
  cases cs with
  | nil => exact ⟨q, X, rfl, noEnd quote, fun _ => quote⟩
  | cons c cs =>
    by_cases hc : c = ' '
    · subst hc
      exact ⟨' ', cs.flatMap spell ++ q :: X, by rw [List.flatMap_cons, h.1]; rfl, rfl, by simp⟩
    · obtain ⟨x, e, he, ink⟩ := (h.2 c List.mem_cons_self hc).ink
      exact ⟨x, e ++ (cs.flatMap spell ++ q :: X), by rw [List.flatMap_cons, he]; simp, noEnd ink,
        fun _ => ink⟩

end Spells

/-- One word of a quoted text and, unless the text ends there, the blanks after it. -/
theorem quotedRest?_word {s : Surrounding} {R : List Char} {m : Mark} {c' : Cursor}
    {text text' : List Char} {fuel : Nat} (begun : isEnd (peek ⟨R, m, false⟩) = false)
    (inside : s.indent ≤ m.column) (column : m.column ≠ 0)
    (word : quotedWord? single (R.length + 1) ⟨R, m, false⟩ text = some (text', false, c')) :
    quotedRest? single s (fuel + 1) ⟨R, m, false⟩ text =
      if c'.peek == (if single then '\'' else '"') then some (text', c')
      else (c'.quotedGap? s.indent false (c'.rest.length + 1) {}).bind fun x =>
        x.2.quotedRest? single s fuel (x.1.fold ++ text') := by
  have inside : ¬((Cursor.column ⟨R, m, false⟩ : Int) < s.indent) := Int.not_lt.2 inside
  rw [quotedRest?, if_neg fun h => column h.1, begun, if_neg Bool.false_ne_true, if_neg inside, word]
  rfl

theorem quotedWord?_quote {q : Char} (quote : q = if single then '\'' else '"')
    (next : X.head? ≠ some '\'') (fuel : Nat) (m : Mark) (text : List Char) :
    quotedWord? single (fuel + 1) ⟨q :: X, m, false⟩ text = some (text, false, ⟨q :: X, m, false⟩) := by
  rw [quotedWord?]
  subst quote
  cases single with
  | false => simp [isGap]
  | true =>
    have other : peek ⟨X, m, false⟩ ≠ '\'' := by
      cases X with
      | nil => simp
      | cons x X => simpa using next
    simp [isGap, other]

/-- **A quoted text read.** A text spelled character by character is read up to its closing quote. -/
theorem quotedRest?_eq {cs : List Char} (spells : Spells single spell cs) {q : Char}
    (quote : q = if single then '\'' else '"') (next : X.head? ≠ some '\'') {s : Surrounding}
    {m : Mark} (inside : s.indent ≤ m.column) (column : m.column ≠ 0) (text : List Char) (fuel : Nat)
    (enough : cs.length < fuel) :
    quotedRest? single s fuel ⟨cs.flatMap spell ++ q :: X, m, false⟩ text =
      some (cs.reverse ++ text, ⟨q :: X, m.right (cs.flatMap spell).length, false⟩) := by
  have inkQuote : isGap q = false := by rw [quote]; cases single <;> rfl
  induction cs using words_induction generalizing m text fuel with
  | last w hw =>
    obtain ⟨fuel, rfl⟩ : ∃ n, fuel = n + 1 := ⟨fuel - 1, by omega⟩
    have length := spells.length_le
    obtain ⟨k, hk⟩ : ∃ k, (w.flatMap spell ++ q :: X).length + 1 = k + 1 + w.length :=
      ⟨(w.flatMap spell ++ q :: X).length - w.length, by simp only [List.length_append]; omega⟩
    have word := quotedWord?_append (R := q :: X) (fun c hc => spells.2 c hc (hw c hc)) (k + 1) m text
    rw [quotedWord?_quote quote next, ← hk] at word
    obtain ⟨x, R, start, begun, -⟩ := spells.head (X := X) inkQuote
    rw [quotedRest?_word (by rw [start]; exact begun) inside column word]
    simp [quote]
  | next w n cs hw head ih =>
    obtain ⟨fuel, rfl⟩ : ∃ n, fuel = n + 1 := ⟨fuel - 1, by omega⟩
    have length := spells.left.length_le
    obtain ⟨y, S, after, -, ink⟩ := spells.right.right.head (X := X) inkQuote
    have split : (w ++ (List.replicate (n + 1) ' ' ++ cs)).flatMap spell ++ q :: X =
        w.flatMap spell ++ (List.replicate (n + 1) ' ' ++ y :: S) := by
      rw [List.flatMap_append, List.flatMap_append, spells.right.left.spaces, ← after]
      simp only [List.append_assoc]
    obtain ⟨k, hk⟩ : ∃ k, (w.flatMap spell ++ (List.replicate (n + 1) ' ' ++ y :: S)).length + 1 =
        k + 1 + w.length :=
      ⟨(w.flatMap spell ++ (List.replicate (n + 1) ' ' ++ y :: S)).length - w.length, by
        simp only [List.length_append]; omega⟩
    have word := quotedWord?_append (R := List.replicate (n + 1) ' ' ++ y :: S)
      (fun c hc => spells.left.2 c hc (hw c hc)) (k + 1) m text
    have stops (text : List Char) (m : Mark) : quotedWord? single (k + 1)
        ⟨List.replicate (n + 1) ' ' ++ y :: S, m, false⟩ text =
          some (text, false, ⟨List.replicate (n + 1) ' ' ++ y :: S, m, false⟩) := rfl
    rw [stops, ← hk] at word
    have gap := quotedGap?_spaces (R := S) (f := false) s.indent (n + 1) ((y :: S).length)
      (m.right (w.flatMap spell).length) [] (ink head)
    obtain ⟨x, R, start, begun, -⟩ := spells.head (X := X) inkQuote
    rw [split] at start
    have open' : (peek ⟨List.replicate (n + 1) ' ' ++ y :: S, m.right (w.flatMap spell).length, false⟩ ==
        if single then '\'' else '"') = false := by cases single <;> rfl
    have size : (List.replicate (n + 1) ' ' ++ y :: S).length = (y :: S).length + (n + 1) := by
      rw [List.length_append, List.length_replicate, Nat.add_comm]
    rw [split, quotedRest?_word (by rw [start]; exact begun) inside column word, open',
      if_neg Bool.false_ne_true, size, gap, Option.bind_some, ← after,
      ih spells.right.right (by simp only [Mark.right_column]; omega) (by simp [column]) _ fuel
        (by simp at enough; omega)]
    simp [spells.right.left.spaces, Pending.fold, Nat.add_assoc]

/-- **A quoted scalar read.** The text that is spelled between two quotes, followed by the colon of a
key or by the end of the line. -/
theorem quotedScalar?_eq {cs : List Char} (spells : Spells single spell cs) {q x : Char}
    (quote : q = if single then '\'' else '"') (next : x = ':' ∨ x = '\n') {s : Surrounding}
    (block : s.flow = false) {m : Mark} (inside : s.indent ≤ m.column) :
    quotedScalar? single s ⟨q :: (cs.flatMap spell ++ q :: x :: X), m, f⟩ =
      some (⟨m, .scalar (if single then .singleQuoted else .doubleQuoted) (String.ofList cs)⟩,
        ⟨x :: X, m.right ((cs.flatMap spell).length + 2), false⟩) := by
  have body := quotedRest?_eq (X := x :: X) spells quote (by rcases next with rfl | rfl <;> simp)
    (s := s) (m := m.right 1) (by simp; omega) (by simp) []
    ((q :: (cs.flatMap spell ++ q :: x :: X)).length + 2)
    (by have := spells.length_le; simp only [List.length_cons, List.length_append]; omega)
  have line : skipToLineEnd ⟨x :: X, m.right ((cs.flatMap spell).length + 2), false⟩ =
      some (⟨x :: X, m.right ((cs.flatMap spell).length + 2), false⟩, ⟨false, false⟩) := by
    rcases next with rfl | rfl <;> rfl
  have closed : (isBreakOrEnd x || s.flow && (x == ',' || x == '}' || x == ']' || x == ':')
      || !s.flow && x == ':' && m.line == m.line) = true := by
    rcases next with rfl | rfl
    · simp [block]
    · simp [block]
      rfl
  rw [quotedScalar?, skipInk_cons]
  simp only [body, Option.bind_eq_bind, Option.bind_some, skipInk_cons, Mark.right_right]
  rw [show 1 + (cs.flatMap spell).length + 1 = (cs.flatMap spell).length + 2 by omega, line,
    Option.bind_some]
  simp only [peek_cons, Mark.right_line, closed, if_true, List.append_nil, List.reverse_reverse]

end Cursor

end LayeredConfig.Yaml
