import LayeredConfig.Proofs.Yaml.Quoted
import LayeredConfig.Yaml.Quoting

/-!
# Reading a scalar without quotes

A plain scalar on one line ends at a colon with a gap behind it or at the end of its line; behind
the line end it reads on to the next character that is no blank, which has to be less indented.
Where no colon stands before a gap and no number sign behind one, the words of a text and the blanks
between them are read as they are (`plainScalar?_eq`).
-/

namespace LayeredConfig.Yaml

open Quoting (hasIndicatorAfter isSeparator)

theorem isGap_of_isSeparator {c : Char} (h : isSeparator c = false) : isGap c = false := by
  simp only [isSeparator, Quoting.isLineEnd, Bool.or_eq_false_iff, beq_eq_false_iff_ne] at h
  simp [isGap, isBlank, isBreakOrEnd, isBreak, isEnd, h]

/-- A text on one line that a plain scalar may hold. -/
structure PlainText (cs : List Char) : Prop where
  gaps : ∀ c ∈ cs, isGap c → c = ' '
  marks : hasIndicatorAfter ' ' cs = false
  ends : cs.getLast? ≠ some ' '

theorem hasIndicatorAfter_append {b : Char} {w r : List Char}
    (h : hasIndicatorAfter b (w ++ r) = false) : hasIndicatorAfter (w.getLast?.getD b) r = false := by
  induction w generalizing b with
  | nil => exact h
  | cons c w ih =>
    rw [List.cons_append, hasIndicatorAfter, Bool.or_eq_false_iff] at h
    have := ih h.2
    rwa [List.getLast?_cons, Option.getD_some]

/-- What follows a word and the blanks behind it. -/
theorem PlainText.rest {w : List Char} {n : Nat} {cs : List Char}
    (plain : PlainText (w ++ (List.replicate (n + 1) ' ' ++ cs))) : PlainText cs ∧ cs ≠ [] := by
  have nonempty : cs ≠ [] := by
    rintro rfl
    exact plain.ends (by simp [List.getLast?_append, List.replicate_succ'])
  refine ⟨⟨fun c hc => plain.gaps c ?_, ?_, ?_⟩, nonempty⟩
  · simp [hc]
  · have marks := plain.marks
    rw [← List.append_assoc] at marks
    simpa [List.getLast?_append, List.replicate_succ'] using hasIndicatorAfter_append marks
  · have ends := plain.ends
    obtain ⟨c, cs, rfl⟩ := List.exists_cons_of_ne_nil nonempty
    simpa [List.getLast?_append, List.getLast?_cons] using ends

/-- Behind a colon of such a text stands no gap. -/
theorem exists_after_colon {b : Char} {r : List Char}
    (h : hasIndicatorAfter b (':' :: r) = false) : ∃ x r', r = x :: r' ∧ isGap x = false := by
  cases r with
  | nil => simp [hasIndicatorAfter] at h
  | cons x r =>
    refine ⟨x, r, rfl, isGap_of_isSeparator ?_⟩
    simp [hasIndicatorAfter] at h
    exact h.1

/-- What may stand behind a plain scalar, and the cursor after the scalar is read. -/
inductive PlainEnd (s : Surrounding) (m : Mark) : List Char → Cursor → Prop
  | colon {g : Char} (gap : isGap g) (X : List Char) :
    PlainEnd s m (':' :: g :: X) ⟨':' :: g :: X, m, false⟩
  | line (n : Nat) {R : List Char} (ink : isBlank (R.headD '\x00') = false)
    (content : isBreak (R.headD '\x00') = false) (outer : (n : Int) ≤ s.indent) :
    PlainEnd s m ('\n' :: (List.replicate n ' ' ++ R)) ⟨R, m.down.right n, true⟩

namespace Cursor

variable {X R : List Char} {f : Bool} {s : Surrounding}

/-- Outside collections only a colon before a gap ends plain text. -/
theorem inPlain_cons {c : Char} (block : s.flow = false)
    (colon : c = ':' → ∃ x R', R = x :: R' ∧ isGap x = false) (m : Mark) :
    inPlain s ⟨c :: R, m, f⟩ = true := by
  by_cases hc : c = ':'
  · obtain ⟨x, R', rfl, hx⟩ := colon hc
    simp [inPlain, block, hx]
  · simp [inPlain, block, hc]

theorem plainWord_cons {c : Char} (block : s.flow = false) (ink : isGap c = false)
    (colon : c = ':' → ∃ x R', R = x :: R' ∧ isGap x = false) (fuel : Nat) (m : Mark)
    (text : List Char) : plainWord s (fuel + 1) ⟨c :: R, m, f⟩ text =
      plainWord s fuel ⟨R, m.right 1, false⟩ (c :: text) := by
  have inside : inPlain s ⟨c :: R, m, f⟩ = true := inPlain_cons block colon m
  rw [plainWord, peek_cons, ink, inside]
  rfl

theorem plainWord_append (block : s.flow = false) {b : Char} {w r : List Char}
    (ink : ∀ c ∈ w, isGap c = false) (marks : hasIndicatorAfter b (w ++ r) = false) (fuel : Nat)
    (m : Mark) (text : List Char) : plainWord s (fuel + w.length) ⟨w ++ (r ++ X), m, false⟩ text =
      plainWord s fuel ⟨r ++ X, m.right w.length, false⟩ (w.reverse ++ text) := by
  induction w generalizing b m text with
  | nil => rfl
  | cons c w ih =>
    have rest : hasIndicatorAfter c (w ++ r) = false := by
      rw [List.cons_append, hasIndicatorAfter, Bool.or_eq_false_iff] at marks
      exact marks.2
    rw [List.length_cons, ← Nat.add_assoc, List.cons_append,
      plainWord_cons block (ink c List.mem_cons_self) ?_,
      ih (fun d hd => ink d (List.mem_cons_of_mem _ hd)) rest, Mark.right_right, Nat.add_comm 1,
      List.reverse_cons, List.append_assoc]
    · rfl
    · rintro rfl
      obtain ⟨x, r', same, hx⟩ := exists_after_colon (r := w ++ r) marks
      exact ⟨x, r' ++ X, by rw [← List.append_assoc, same]; rfl, hx⟩

theorem plainGap?_spaces (indent : Int) (n fuel : Nat) (m : Mark) (blanks : List Char) {x : Char}
    (ink : isGap x = false) :
    plainGap? indent (fuel + n + 1) ⟨List.replicate n ' ' ++ x :: R, m, false⟩ { blanks } =
      some ({ blanks := List.replicate n ' ' ++ blanks }, ⟨x :: R, m.right n, false⟩) := by
  induction n generalizing m blanks with
  | zero =>
    have ⟨blank, stop, _⟩ : isBlank x = false ∧ isBreak x = false ∧ isEnd x = false := by
      simpa [isGap, isBreakOrEnd] using ink
    simp [plainGap?, blank, stop]
  | succ n ih =>
    have next := ih (m.right 1) (' ' :: blanks)
    rw [Mark.right_right, Nat.add_comm 1, List.append_cons _ ' ', ← List.replicate_succ',
      List.replicate_succ] at next
    rw [List.replicate_succ, List.cons_append, ← Nat.add_assoc, plainGap?]
    simpa [show isBlank ' ' = true from rfl] using next

theorem plainGap?_indentation (indent : Int) (n fuel : Nat) (m : Mark) (p : Pending)
    (ink : isBlank (R.headD '\x00') = false) (content : isBreak (R.headD '\x00') = false) :
    plainGap? indent (fuel + n + 1) ⟨List.replicate n ' ' ++ R, m, true⟩ p =
      some (p, ⟨R, m.right n, true⟩) := by
  induction n generalizing m with
  | zero =>
    cases R with
    | nil => rfl
    | cons x R =>
      have blank : isBlank x = false := ink
      have stop : isBreak x = false := content
      simp [plainGap?, blank, stop]
  | succ n ih =>
    have next := ih (m.right 1)
    rw [Mark.right_right, Nat.add_comm 1] at next
    rw [List.replicate_succ, List.cons_append, ← Nat.add_assoc, plainGap?]
    simpa [show isBlank ' ' = true from rfl] using next

theorem plainGap?_line (indent : Int) (n : Nat) (m : Mark) (ink : isBlank (R.headD '\x00') = false)
    (content : isBreak (R.headD '\x00') = false) :
    plainGap? indent (('\n' :: (List.replicate n ' ' ++ R)).length + 1)
      ⟨'\n' :: (List.replicate n ' ' ++ R), m, false⟩ {} =
        some ({ broken := true }, ⟨R, m.down.right n, true⟩) := by
  have size : ('\n' :: (List.replicate n ' ' ++ R)).length + 1 = R.length + n + 1 + 1 := by
    simp only [List.length_cons, List.length_append, List.length_replicate]; omega
  rw [size, plainGap?]
  simpa [isBlank, isBreak] using
    plainGap?_indentation indent n R.length m.down { broken := true } ink content

/-- One word of a plain scalar and, unless the scalar ends there, the gap after it. -/
theorem plainRest?_word {m : Mark} {c : Char} {c' : Cursor} {text text' : List Char} {p : Pending}
    {fuel : Nat} (block : s.flow = false) (edge : m.column = 0 → c ≠ '-' ∧ c ≠ '.')
    (ink : isGap c = false) (mark : c ≠ '#') (colon : c = ':' → ∃ x R', R = x :: R' ∧ isGap x = false)
    (word : plainWord s ((c :: R).length + 1) ⟨c :: R, m, f⟩ (p.fold ++ text) = (text', c')) :
    plainRest? s (fuel + 1) ⟨c :: R, m, f⟩ text p =
      if !(isBlank c'.peek || isBreak c'.peek) then some (text', c')
      else (c'.plainGap? (s.indent + 1) (c'.rest.length + 1) {}).bind fun x =>
        if !s.flow && (x.2.column : Int) < s.indent + 1 then some (text', x.2)
        else x.2.plainRest? s fuel text' x.1 := by
  have inside : inPlain s ⟨c :: R, m, f⟩ = true := inPlain_cons block colon m
  have start : ¬((column ⟨c :: R, m, f⟩ = 0 ∧ atDocumentEdge ⟨c :: R, m, f⟩) ∨
      (peek ⟨c :: R, m, f⟩ == '#') = true) := by
    rintro (⟨column, edged⟩ | same)
    · obtain ⟨dash, dot⟩ := edge column
      simp [atDocumentEdge, atMarker, dash, dot] at edged
    · exact mark (by simpa using same)
  have begun : (!isGap (peek ⟨c :: R, m, f⟩) && inPlain s ⟨c :: R, m, f⟩) = true := by
    rw [peek_cons, ink, inside]; rfl
  have open' : ¬(s.flow && peek ⟨c :: R, m, f⟩ == '-' && isFlow (peek ⟨c :: R, m, f⟩ 1)) = true := by
    simp [block]
  change (if (column ⟨c :: R, m, f⟩ = 0 ∧ atDocumentEdge ⟨c :: R, m, f⟩) ∨
      (peek ⟨c :: R, m, f⟩ == '#') = true then _ else if _ then _ else _) = _
  rw [if_neg start, if_neg open']
  rw [if_pos begun, show plainWord s ((mk (c :: R) m f).rest.length + 1) ⟨c :: R, m, f⟩
    (p.fold ++ text) = (text', c') from word]
  dsimp only
  split
  · rfl
  · cases plainGap? (s.indent + 1) (c'.rest.length + 1) c' {} <;> rfl

theorem plainWord_word (block : s.flow = false) {b c : Char} {w r : List Char}
    (ink : ∀ d ∈ c :: w, isGap d = false) (marks : hasIndicatorAfter b (c :: (w ++ r)) = false)
    (stop : ∀ fuel m text, plainWord s (fuel + 1) ⟨r ++ X, m, false⟩ text =
      (text, ⟨r ++ X, m, false⟩)) (m : Mark) (text : List Char) :
    plainWord s ((c :: (w ++ (r ++ X))).length + 1) ⟨c :: (w ++ (r ++ X)), m, f⟩ text =
      (w.reverse ++ c :: text, ⟨r ++ X, m.right (w.length + 1), false⟩) := by
  have rest : hasIndicatorAfter c (w ++ r) = false := by
    rw [hasIndicatorAfter, Bool.or_eq_false_iff] at marks
    exact marks.2
  have size : (c :: (w ++ (r ++ X))).length + 1 = (r ++ X).length + 1 + w.length + 1 := by
    simp only [List.length_cons, List.length_append]; omega
  rw [size, plainWord_cons block (ink c List.mem_cons_self) ?_,
    plainWord_append block (fun d hd => ink d (List.mem_cons_of_mem _ hd)) rest, stop,
    Mark.right_right, Nat.add_comm 1]
  rintro rfl
  obtain ⟨x, r', same, hx⟩ := exists_after_colon marks
  exact ⟨x, r' ++ X, by rw [← List.append_assoc, same]; rfl, hx⟩

theorem ne_number_sign {cs : List Char} {c : Char} (h : hasIndicatorAfter ' ' (c :: cs) = false) :
    c ≠ '#' := by
  rintro rfl
  simp [hasIndicatorAfter, isSeparator] at h

/-- **A plain scalar read.** All words of a text and the blanks between them. -/
theorem plainRest?_eq {cs : List Char} {X : List Char} {m : Mark} {c' : Cursor} {p : Pending}
    (fuel : Nat) (plain : PlainText cs) (begins : cs.head? ≠ some ' ') (nonempty : cs ≠ [])
    (block : s.flow = false) (inside : s.indent ≤ m.column)
    (edge : m.column = 0 → cs.head? ≠ some '-' ∧ cs.head? ≠ some '.')
    (stop : PlainEnd s (m.right cs.length) X c') (broken : p.broken = false)
    (text : List Char) (enough : cs.length < fuel) :
    plainRest? s fuel ⟨cs ++ X, m, f⟩ text p = some (cs.reverse ++ (p.blanks ++ text), c') := by
  have fold (p : Pending) (h : p.broken = false) : p.fold = p.blanks := by simp [Pending.fold, h]
  induction cs using words_induction generalizing m f p text fuel with
  | last w hw =>
    obtain ⟨fuel, rfl⟩ : ∃ n, fuel = n + 1 := ⟨fuel - 1, by omega⟩
    obtain ⟨c, w, rfl⟩ := List.exists_cons_of_ne_nil nonempty
    have ink : ∀ d ∈ c :: w, isGap d = false := fun d hd =>
      Bool.eq_false_iff.2 fun gap => hw d hd (plain.gaps d hd gap)
    have stops (fuel : Nat) (m : Mark) (text : List Char) :
        plainWord s (fuel + 1) ⟨[] ++ X, m, false⟩ text = (text, ⟨[] ++ X, m, false⟩) := by
      cases stop with
      | colon gap X => simp [plainWord, inPlain, gap]
      | line => rfl
    have word := plainWord_word (f := f) (r := []) block ink (by simpa using plain.marks) stops m
      (p.fold ++ text)
    rw [List.nil_append, List.reverse_cons] at *
    rw [List.cons_append, plainRest?_word block (by simpa using edge) (ink c List.mem_cons_self)
      (ne_number_sign plain.marks) (fun hc => ?_) word, fold p broken]
    · cases stop with
      | colon gap X => simp [isBlank, isBreak]
      | @line n T ink content outer =>
        have outside : (!s.flow && (column ⟨T, (m.right (w.length + 1)).down.right n, true⟩ : Int) <
            s.indent + 1) = true := by simp [block, column]; omega
        rw [peek_cons, if_neg (by decide), plainGap?_line _ n _ ink content, Option.bind_some,
          if_pos outside]
        simp
    · subst hc
      obtain ⟨x, r', same, hx⟩ := exists_after_colon plain.marks
      exact ⟨x, r' ++ X, by rw [same]; rfl, hx⟩
  | next w n cs hw head ih =>
    obtain ⟨fuel, rfl⟩ : ∃ n, fuel = n + 1 := ⟨fuel - 1, by omega⟩
    cases w with
    | nil => exact absurd rfl begins
    | cons c w =>
      have ink : ∀ d ∈ c :: w, isGap d = false := fun d hd =>
        Bool.eq_false_iff.2 fun gap => hw d hd (plain.gaps d (List.mem_append_left _ hd) gap)
      obtain ⟨plain', nonempty'⟩ := plain.rest
      have split : c :: w ++ (List.replicate (n + 1) ' ' ++ cs) ++ X =
          c :: (w ++ (' ' :: (List.replicate n ' ' ++ cs) ++ X)) := by
        simp [List.replicate_succ]
      have marks : hasIndicatorAfter ' ' (c :: (w ++ ' ' :: (List.replicate n ' ' ++ cs))) = false := by
        simpa [List.replicate_succ] using plain.marks
      have word := plainWord_word (X := X) (f := f) block ink marks (fun _ _ _ => rfl) m (p.fold ++ text)
      rw [split, plainRest?_word block (by simpa using edge) (ink c List.mem_cons_self)
        (ne_number_sign marks) (fun hc => ?_) word, fold p broken]
      · obtain ⟨y, cs, rfl⟩ := List.exists_cons_of_ne_nil nonempty'
        have next : isGap y = false := Bool.eq_false_iff.2 fun gap =>
          head (by rw [plain'.gaps y List.mem_cons_self gap]; rfl)
        have spaces : ' ' :: (List.replicate n ' ' ++ y :: cs) ++ X =
            List.replicate (n + 1) ' ' ++ y :: (cs ++ X) := by simp [List.replicate_succ]
        have size : (List.replicate (n + 1) ' ' ++ y :: (cs ++ X)).length = (y :: (cs ++ X)).length + (n + 1) := by
          rw [List.length_append, List.length_replicate, Nat.add_comm]
        have inner : ¬(!s.flow && (column ⟨y :: (cs ++ X), (m.right (w.length + 1)).right (n + 1), false⟩ : Int) <
            s.indent + 1) = true := by simp [column]; omega
        rw [if_neg (by simp [isBlank]), spaces, size, plainGap?_spaces _ _ _ _ _ next,
          Option.bind_some, if_neg inner]
        have total : w.length + 1 + (n + 1 + (y :: cs).length) =
            (c :: w ++ (List.replicate (n + 1) ' ' ++ y :: cs)).length := by
          simp only [List.length_append, List.length_cons, List.length_replicate, Nat.add_comm,
            Nat.add_left_comm]
        have rest := ih (f := false) (m := (m.right (w.length + 1)).right (n + 1))
          (p := { blanks := List.replicate (n + 1) ' ' ++ [] }) fuel plain' head (by simp)
          (by simp; omega) (by simp)
          (by rw [Mark.right_right, Mark.right_right, total]; exact stop) rfl
          (w.reverse ++ c :: (p.blanks ++ text)) (by omega)
        rw [List.cons_append] at rest
        rw [rest]
        simp
      · subst hc
        obtain ⟨x, r', same, hx⟩ := exists_after_colon marks
        exact ⟨x, r' ++ X, by rw [← List.append_assoc, same]; rfl, hx⟩

/-- **A plain scalar.** A text that a plain scalar may hold is read whole. -/
theorem plainScalar?_eq {cs : List Char} {m : Mark} {c' : Cursor} (plain : PlainText cs)
    (begins : cs.head? ≠ some ' ') (nonempty : cs ≠ []) (block : s.flow = false)
    (inside : s.indent ≤ m.column) (edge : m.column = 0 → cs.head? ≠ some '-' ∧ cs.head? ≠ some '.')
    (stop : PlainEnd s (m.right cs.length) X c') :
    plainScalar? s ⟨cs ++ X, m, f⟩ = some (⟨m, .scalar .plain (String.ofList cs)⟩, c') := by
  rw [plainScalar?, if_neg (by simp [block]), plainRest?_eq _ plain begins nonempty block inside edge
    stop rfl [] (by simp only [List.length_append]; omega)]
  simp

end Cursor

end LayeredConfig.Yaml
