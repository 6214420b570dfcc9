import LayeredConfig.Proofs.Yaml.Plain

/-!
# Strings as they are written

A string is written plain, between single quotes or between double quotes, and each form is one that
the reader takes for that string: a plain one is a `PlainText`, a quoted one is spelled character by
character (`inscription_scalar`). Two kinds of strings are left out. A string of line ends only is written
as the header of a block scalar without a line below it. And between single quotes a line or
paragraph separator is written with two blanks behind it, which the reader does not take away.
-/

namespace LayeredConfig.Yaml.Quoting

open Cursor

/-- A string that reads back as it was written. -/
structure Legible (s : String) : Prop where
  content : s.toList ≠ [] → ∃ c ∈ s.toList, c ≠ '\n'
  separators : ∀ c ∈ s.toList, c ≠ '\u2028' ∧ c ≠ '\u2029'

theorem legible_iff {s : String} : Legible s ↔
    (s.toList = [] ∨ s.toList.any (· ≠ '\n')) ∧ s.toList.all fun c => c ≠ '\u2028' ∧ c ≠ '\u2029' := by
  simp only [List.any_eq_true, List.all_eq_true, decide_eq_true_eq, Decidable.or_iff_not_imp_left]
  exact ⟨fun h => ⟨h.content, h.separators⟩, fun h => ⟨h.1, h.2⟩⟩

instance (s : String) : Decidable (Legible s) := decidable_of_iff _ legible_iff.symm

/-! ## Characters between quotes -/

/-- Whether an escape stands for a character. -/
def decodes (c : Char) : List Char → Bool
  | x :: k :: digits =>
    x == '\\' && !isBreak k && match escape? k with
      | some (.inl d) => digits.isEmpty && d == c
      | some (.inr n) => n == digits.length && digits.all isHex && charOf? (hexValue digits) == some c
      | none => false
  | _ => false

theorem peeks_append (ds R : List Char) (m : Mark) (f : Bool) :
    ((List.range ds.length).map fun i => peek ⟨ds ++ R, m, f⟩ i) = ds := by
  refine List.ext_getElem (by simp) fun i _ hi => ?_
  simp [peek, List.getElem?_append_left hi, List.getElem?_eq_getElem hi]

theorem spelled_of_decodes {c : Char} {e : List Char} (h : decodes c e) : Spelled false c e := by
  rcases e with - | ⟨x, - | ⟨k, ds⟩⟩
  · cases h
  · cases h
  simp only [decodes, Bool.and_eq_true, beq_iff_eq, Bool.not_eq_true'] at h
  obtain ⟨⟨rfl, straight⟩, h⟩ := h
  have line : '\n' ∉ '\\' :: k :: ds := by
    have feed : '\n' ≠ k := by rintro rfl; cases straight
    have digits : '\n' ∉ ds := fun hd => by
      cases kind : escape? k with
      | none => simp [kind] at h
      | some form =>
        cases form with
        | inl d =>
          simp only [kind, Bool.and_eq_true, List.isEmpty_iff] at h
          rw [h.1] at hd
          cases hd
        | inr n =>
          simp only [kind, Bool.and_eq_true, List.all_eq_true] at h
          exact absurd (h.1.2 _ hd) (by decide)
    simp [feed, digits]
  refine ⟨⟨_, _, rfl, rfl⟩, line, fun fuel R m text => ?_⟩
  have sequence : escapeSequence? ⟨'\\' :: k :: ds ++ R, m, false⟩ =
      some (c, ⟨R, m.right (ds.length + 2), false⟩) := by
    cases kind : escape? k with
    | none => simp [kind] at h
    | some form =>
      cases form with
      | inl d =>
        simp [kind] at h
        simp [escapeSequence?, kind, h, skipInk, skip, Mark.right]
      | inr n =>
        simp [kind] at h
        obtain ⟨⟨rfl, hex⟩, code⟩ := h
        have digits := peeks_append ds R (m.right 2) false
        have all : ds.all isHex = true := by simpa using hex
        have whole := skipInk_append (R := R) (m := m.right 2) (f := false) ds
        simp only [escapeSequence?, List.cons_append, peek_cons_succ, peek_cons, kind]
        rw [show skipInk ⟨'\\' :: k :: (ds ++ R), m, false⟩ 2 = ⟨ds ++ R, m.right 2, false⟩ from rfl,
          digits, all, if_pos rfl, code, whole, Mark.right_right, Nat.add_comm 2]
        rfl
  rw [quotedWord?]
  simp only [List.cons_append, peek_cons, peek_cons_succ, straight]
  rw [List.cons_append, List.cons_append] at sequence
  rw [sequence]
  rfl

/-- **Escapes read.** Every character that is not written as itself. -/
theorem decodes_escapeChar {c : Char} (h : isPrintable c = false ∨ isLineEnd c ∨ c = '"' ∨ c = '\\') :
    decodes c (escapeChar c) := by
  have low : ∀ n : Fin 160, (isPrintable (Char.ofNat n) = false ∨ isLineEnd (Char.ofNat n) ∨
      Char.ofNat n = '"' ∨ Char.ofNat n = '\\') → decodes (Char.ofNat n) (escapeChar (Char.ofNat n)) := by
    decide +kernel
  by_cases small : c.toNat < 160
  · have := low ⟨c.toNat, small⟩
    rw [Char.ofNat_toNat] at this
    exact this h
  · have code {n : Nat} (hn : c.toNat = n) (hd : decodes (Char.ofNat n) (escapeChar (Char.ofNat n))) :
        decodes c (escapeChar c) := by
      rwa [← hn, Char.ofNat_toNat] at hd
    rcases h with h | h | rfl | rfl
    · simp only [isPrintable, Bool.or_eq_false_iff, Bool.and_eq_false_iff, decide_eq_false_iff_not,
        bne_eq_false_iff_eq] at h
      rcases h.2 with ((h | h) | h) | h
      · omega
      · exact code h (by decide +kernel)
      · exact code h (by decide +kernel)
      · exact code h (by decide +kernel)
    · simp only [isLineEnd, Bool.or_eq_true, beq_iff_eq] at h
      rcases h with (((rfl | rfl) | rfl) | rfl) | rfl <;> decide +kernel
    · exact absurd (by decide) small
    · exact absurd (by decide) small

/-- How a character of a printable text stands between single quotes. -/
def singleSpelling (c : Char) : List Char := if c = '\'' then ['\'', '\''] else [c]

/-- How a character stands between double quotes. -/
def doubleSpelling (c : Char) : List Char :=
  if isPrintable c && !isLineEnd c && c != '"' && c != '\\' then [c] else escapeChar c

/-- How a character stands between the double quotes of a text of several lines. -/
def linesSpelling (c : Char) : List Char :=
  if c = '"' then ['\\', '"'] else if c = '\\' then ['\\', '\\']
  else if c = '\n' then ['\\', 'n'] else [c]

theorem isGap_of_isPrintable {c : Char} (printable : isPrintable c) (feed : c ≠ '\n')
    (space : c ≠ ' ') : isGap c = false := by
  have tab : c ≠ '\t' := by rintro rfl; revert printable; decide
  have zero : c ≠ '\x00' := by rintro rfl; revert printable; decide
  have carriage : c ≠ '\r' := by rintro rfl; revert printable; decide
  simp [isGap, isBlank, isBreakOrEnd, isBreak, isEnd, space, tab, zero, feed, carriage]

theorem ne_feed {c : Char} (line : isLineEnd c = false) : c ≠ '\n' := by rintro rfl; cases line

theorem spelled_single {c : Char} (printable : isPrintable c) (line : isLineEnd c = false)
    (space : c ≠ ' ') : Spelled true c (singleSpelling c) := by
  have ink := isGap_of_isPrintable printable (ne_feed line) space
  by_cases quote : c = '\''
  · subst quote
    exact ⟨⟨_, _, rfl, rfl⟩, by decide, fun _ _ _ _ => rfl⟩
  · rw [singleSpelling, if_neg quote]
    refine ⟨⟨_, _, rfl, ink⟩, by simpa using (ne_feed line).symm, fun fuel R m text => ?_⟩
    rw [quotedWord?]
    simp [ink, quote]

theorem spelled_self {c : Char} (ink : isGap c = false) (quote : c ≠ '"') (escape : c ≠ '\\') :
    Spelled false c [c] := by
  have feed : '\n' ≠ c := by rintro rfl; cases ink
  refine ⟨⟨_, _, rfl, ink⟩, by simpa using feed, fun fuel R m text => ?_⟩
  rw [quotedWord?]
  simp [ink, quote, escape]

theorem spelled_double {c : Char} (space : c ≠ ' ') : Spelled false c (doubleSpelling c) := by
  by_cases h : isPrintable c && !isLineEnd c && c != '"' && c != '\\'
  · rw [doubleSpelling, if_pos h]
    simp only [Bool.and_eq_true, Bool.not_eq_true', bne_iff_ne] at h
    exact spelled_self (isGap_of_isPrintable h.1.1.1 (ne_feed h.1.1.2) space) h.1.2 h.2
  · rw [doubleSpelling, if_neg h]
    refine spelled_of_decodes (decodes_escapeChar ?_)
    simp only [Bool.and_eq_true, Bool.not_eq_true', bne_iff_ne] at h
    grind

/-- Between the quotes of several lines only a quote, a backslash and a line feed are escaped. -/
theorem spelled_lines {c : Char} (printable : isPrintable c) (space : c ≠ ' ') :
    Spelled false c (linesSpelling c) := by
  unfold linesSpelling
  split
  · exact spelled_of_decodes (by subst_vars; decide)
  split
  · exact spelled_of_decodes (by subst_vars; decide)
  split
  · exact spelled_of_decodes (by subst_vars; decide)
  · exact spelled_self (isGap_of_isPrintable printable ‹_› space) ‹_› ‹_›

theorem singleBody_eq {cs : List Char} (h : ∀ c ∈ cs, isLineEnd c = false) :
    singleBody false cs = cs.flatMap singleSpelling := by
  induction cs with
  | nil => rfl
  | cons c cs ih =>
    rw [singleBody, h c List.mem_cons_self, ih fun d hd => h d (List.mem_cons_of_mem _ hd),
      List.flatMap_cons]
    rfl

theorem isControl_of_isPrintable {c : Char} (printable : isPrintable c) (feed : c ≠ '\n') :
    isControl c = false := by
  simp only [isPrintable, Bool.or_eq_true, beq_iff_eq, feed, false_or, Bool.and_eq_true,
    decide_eq_true_eq, bne_iff_ne] at printable
  simp only [isControl, Bool.or_eq_false_iff, decide_eq_false_iff_not, Bool.and_eq_false_iff]
  omega

theorem linesQuoted_eq {cs : List Char} (h : ∀ c ∈ cs, isPrintable c) :
    linesQuoted cs = '"' :: (cs.flatMap linesSpelling ++ ['"']) := by
  unfold linesQuoted
  dsimp only
  rw [List.cons_append]
  congr 2
  induction cs with
  | nil => rfl
  | cons c cs ih =>
    rw [List.flatMap_cons, List.flatMap_cons, ih fun d hd => h d (List.mem_cons_of_mem _ hd)]
    congr 1
    have printable := h c List.mem_cons_self
    split
    · rfl
    · rfl
    · rfl
    · revert printable; decide
    · revert printable; decide
    · rename_i quote escape feed _ _
      rw [isControl_of_isPrintable printable feed, linesSpelling, if_neg quote, if_neg escape, if_neg feed]
      rfl

/-! ## Plain texts -/

/-- Behind a character that may stand for more than itself in front of a gap. -/
theorem exists_of_not_separated {cs : List Char} (h : cs.head?.all isSeparator = false) :
    ∃ x r, cs = x :: r ∧ isGap x = false := by
  cases cs with
  | nil => cases h
  | cons x r => exact ⟨x, r, rfl, isGap_of_isSeparator h⟩

/-- A text that a plain scalar may be. -/
structure PlainForm (cs : List Char) : Prop extends PlainText cs where
  begins : ∃ c r, cs = c :: r ∧ isGap c = false ∧ startIndicators.contains c = false ∧
    (c = '?' ∨ c = ':' ∨ c = '-' → ∃ x r', r = x :: r' ∧ isGap x = false)

/-- **Plain texts.** A text that is written as it is may be a plain scalar. -/
theorem plainForm_of_allowsPlain {cs : List Char} (h : allowsPlain cs) (nonempty : cs ≠ []) :
    PlainForm cs := by
  simp only [allowsPlain, Bool.and_eq_true, Bool.not_eq_true', atEnds, isSpecial,
    Bool.or_eq_false_iff, Bool.not_eq_false'] at h
  obtain ⟨⟨⟨⟨starts, ends⟩, lines⟩, printable, -⟩, indicator⟩ := h
  have gaps : ∀ c ∈ cs, isGap c → c = ' ' := fun c hc gap => Decidable.byContradiction fun space => by
    have line : isLineEnd c = false := by simpa using List.any_eq_false.1 lines c hc
    rw [isGap_of_isPrintable (List.all_eq_true.1 printable c hc) (ne_feed line) space] at gap
    cases gap
  have last : cs.getLast? ≠ some ' ' := by
    intro last
    rw [last] at ends
    cases ends
  obtain ⟨c, cs, rfl⟩ := List.exists_cons_of_ne_nil nonempty
  simp only [hasIndicator, Bool.or_eq_false_iff] at indicator
  obtain ⟨⟨⟨⟨start, alone⟩, -⟩, -⟩, after⟩ := indicator
  refine ⟨⟨gaps, ?_, last⟩, c, cs, rfl, Bool.eq_false_iff.2 fun gap => ?_, start, fun hc => ?_⟩
  · have sign : c ≠ '#' := by rintro rfl; revert start; decide
    have colon : (c == ':' && cs.head?.all isSeparator) = false := by
      by_cases hc : c = ':'
      · subst hc; simpa using alone
      · simp [hc]
    rw [hasIndicatorAfter, colon, after]
    simp [sign]
  · rw [gaps c List.mem_cons_self gap] at starts
    cases starts
  · refine exists_of_not_separated ?_
    rcases hc with rfl | rfl | rfl <;> simpa using alone

/-! ## The three forms -/

/-- How a text stands as a scalar of a style. -/
inductive Inscription (text : List Char) : Style → List Char → Prop
  | plain (form : PlainForm text) : Inscription text .plain text
  | single (spells : Spells true singleSpelling text) :
    Inscription text .singleQuoted ('\'' :: (text.flatMap singleSpelling ++ ['\'']))
  | double {spell : Char → List Char} (spells : Spells false spell text) :
    Inscription text .doubleQuoted ('"' :: (text.flatMap spell ++ ['"']))

/-- Whether a string is written without quotes. -/
def standsPlain (s : String) : Bool :=
  !s.toList.contains '\n' && (!PlainScalar.isAmbiguous s && allowsPlain s.toList)

/-- The style in which a string is written. -/
def styleOf (s : String) : Style :=
  if standsPlain s then .plain
  else if !s.toList.contains '\n' && allowsSingle s.toList then .singleQuoted else .doubleQuoted

/-- **Legible strings are spelled.** -/
theorem inscription_scalar {s : String} (h : Legible s) :
    Inscription s.toList (styleOf s) (scalar s).toList := by
  have toList : (scalar s).toList = if s.toList.contains '\n' then
      if !allowsBlock s.toList then doubleQuoted s.toList
      else if s.toList.all (· == '\n') then "|2+".toList
      else linesQuoted s.toList
    else if !PlainScalar.isAmbiguous s && allowsPlain s.toList then s.toList
    else if allowsSingle s.toList then singleQuoted s.toList
    else doubleQuoted s.toList := String.toList_ofList
  have double : Inscription s.toList .doubleQuoted (doubleQuoted s.toList) :=
    .double ⟨rfl, fun c _ space => spelled_double space⟩
  have printable (special : isSpecial s.toList = false) : ∀ c ∈ s.toList, isPrintable c := by
    simp only [isSpecial, Bool.or_eq_false_iff, Bool.not_eq_false', List.all_eq_true] at special
    exact special.1
  rw [toList, styleOf, standsPlain]
  by_cases feed : s.toList.contains '\n'
  · rw [if_pos feed, feed]
    simp only [Bool.not_true, Bool.false_and, Bool.false_eq_true, if_false]
    split
    · exact double
    rename_i block
    have special : isSpecial s.toList = false := by simp_all [allowsBlock]
    rw [if_neg, linesQuoted_eq (printable special)]
    · exact .double ⟨rfl, fun c hc space => spelled_lines (printable special c hc) space⟩
    · intro all
      have nonempty : s.toList ≠ [] := by rintro empty; simp [empty] at feed
      obtain ⟨c, hc, other⟩ := h.content nonempty
      exact absurd (by simpa using List.all_eq_true.1 all c hc) other
  · rw [if_neg feed, Bool.eq_false_iff.2 feed]
    simp only [Bool.not_false, Bool.true_and]
    split
    · rename_i plain
      simp only [Bool.and_eq_true, Bool.not_eq_true'] at plain
      refine .plain (plainForm_of_allowsPlain plain.2 fun empty => ?_)
      rw [String.toList_eq_nil_iff.1 empty] at plain
      exact absurd plain.1 (by decide)
    split
    · rename_i single
      have special : isSpecial s.toList = false := by simp_all [allowsSingle]
      have line : ∀ c ∈ s.toList, isLineEnd c = false := fun c hc => by
        have shown := printable special c hc
        obtain ⟨separator, paragraph⟩ := h.separators c hc
        have ⟨next, other, carriage⟩ : c ≠ '\u0085' ∧ c ≠ '\n' ∧ c ≠ '\r' := by
          refine ⟨?_, ?_, ?_⟩
          · rintro rfl; revert shown; decide
          · rintro rfl; exact feed (by simpa using hc)
          · rintro rfl; revert shown; decide
        simp [isLineEnd, separator, paragraph, next, other, carriage]
      rw [singleQuoted, singleBody_eq line]
      exact .single ⟨rfl, fun c hc space => spelled_single (printable special c hc) (line c hc) space⟩
    · exact double

namespace Inscription

variable {text W : List Char} {style : Style}

theorem line (h : Inscription text style W) : '\n' ∉ W := by
  have quoted {single : Bool} {spell : Char → List Char} (spells : Spells single spell text) :
      '\n' ∉ text.flatMap spell := by
    rw [List.mem_flatMap]
    rintro ⟨c, hc, feed⟩
    by_cases space : c = ' '
    · rw [space, spells.1] at feed
      simp at feed
    · exact (spells.2 c hc space).line feed
  cases h with
  | plain form => exact fun feed => absurd (form.gaps _ feed rfl) (by decide)
  | single spells => simp [quoted spells]
  | double spells => simp [quoted spells]

/-- What stands for a scalar begins with no blank. -/
theorem begins (h : Inscription text style W) : ∃ x W', W = x :: W' ∧ isGap x = false ∧ x ≠ '#' := by
  cases h with
  | plain form =>
    obtain ⟨c, r, rfl, ink, start, -⟩ := form.begins
    exact ⟨c, r, rfl, ink, by rintro rfl; revert start; decide⟩
  | single => exact ⟨_, _, rfl, rfl, by decide⟩
  | double => exact ⟨_, _, rfl, rfl, by decide⟩

end Inscription

end LayeredConfig.Yaml.Quoting
