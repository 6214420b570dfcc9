import LayeredConfig.Proofs.Yaml.Layout

/-!
# Scalars as they are written and read

The text of a boolean or a number stands without quotes, so together with the strings every scalar is
written in a form that is read (`inscription_scalarText`). It may be read as another value, but never
as none: only a missing value is (`scalarBack_eq_none_iff`).
-/

namespace LayeredConfig.Yaml

open Quoting (Inscription PlainForm Legible)

/-! ## Numbers -/

/-- Whether a character may stand in the text of a number. -/
def isNumberChar (c : Char) : Bool := c.isDigit || "-.einfa".toList.contains c

/-- The text of a number without a sign: a digit or a point first. -/
structure IsMagnitude (cs : List Char) : Prop where
  first : cs.head?.any fun c => c.isDigit || c == '.'
  all : ∀ c ∈ cs, isNumberChar c

/-- The text of a number. -/
def IsNumberText (cs : List Char) : Prop := IsMagnitude cs ∨ ∃ body, cs = '-' :: body ∧ IsMagnitude body

theorem IsMagnitude.append {cs ds : List Char} (h : IsMagnitude cs) (all : ∀ c ∈ ds, isNumberChar c) :
    IsMagnitude (cs ++ ds) := by
  obtain ⟨first, chars⟩ := h
  obtain ⟨c, r, rfl⟩ : ∃ c r, cs = c :: r := by
    cases cs with
    | nil => cases first
    | cons c r => exact ⟨c, r, rfl⟩
  exact ⟨first, fun d hd => (List.mem_append.1 hd).elim (chars d) (all d)⟩

theorem isNumberChar_of_mem_toDigits {n : Nat} {c : Char} (h : c ∈ Nat.toDigits 10 n) : isNumberChar c := by
  simp [isNumberChar, Nat.isDigit_of_mem_toDigits (by decide) (by decide) h]

theorem isMagnitude_of_digits {cs : List Char} (nonempty : cs ≠ []) (digits : ∀ c ∈ cs, c.isDigit) :
    IsMagnitude cs := by
  obtain ⟨c, r, rfl⟩ := List.exists_cons_of_ne_nil nonempty
  exact ⟨by simp [digits c List.mem_cons_self], fun d hd => by simp [isNumberChar, digits d hd]⟩

theorem isMagnitude_toDigits (n : Nat) : IsMagnitude (Nat.toDigits 10 n) :=
  isMagnitude_of_digits Nat.toDigits_ne_nil fun _ => Nat.isDigit_of_mem_toDigits (by decide) (by decide)

theorem isMagnitude_repr (n : Nat) : IsMagnitude n.repr.toList := by
  rw [Nat.repr_eq_ofList_toDigits, String.toList_ofList]
  exact isMagnitude_toDigits n

theorem isNumberText_toString (i : Int) : IsNumberText (toString i).toList := by
  rw [Int.toString_eq_repr, Int.repr_eq_if]
  split
  · exact Or.inl (isMagnitude_repr _)
  · exact Or.inr ⟨_, by rw [String.toList_append]; rfl, isMagnitude_repr _⟩

theorem IsNumberText.chars {cs : List Char} (h : IsNumberText cs) : ∀ c ∈ cs, isNumberChar c := by
  rcases h with h | ⟨body, rfl, h⟩
  · exact h.all
  · exact List.forall_mem_cons.2 ⟨rfl, h.all⟩

open Binary64 in
theorem isMagnitude_decimal (digits : Nat) (scale : Int) : IsMagnitude (Number.layout.decimal digits scale) := by
  have ds := isMagnitude_toDigits digits
  have some (n : Nat) (pos : 0 < n) : IsMagnitude ((Nat.toDigits 10 digits).take n) :=
    isMagnitude_of_digits (by simp [Nat.ne_of_gt pos, Nat.toDigits_ne_nil]) fun c hc =>
      Nat.isDigit_of_mem_toDigits (by decide) (by decide) (List.mem_of_mem_take hc)
  have others {n : Nat} : ∀ c ∈ (Nat.toDigits 10 digits).drop n, isNumberChar c := fun c hc =>
    isNumberChar_of_mem_toDigits (List.mem_of_mem_drop hc)
  have zeros {n : Nat} : ∀ c ∈ List.replicate n '0', isNumberChar c := fun c hc => by
    rw [List.eq_of_mem_replicate hc]
    rfl
  rw [Layout.decimal]
  dsimp only
  split
  · exact (ds.append zeros).append (List.all_eq_true.1 rfl)
  split
  · refine (some _ (by omega)).append (List.forall_mem_cons.2 ⟨rfl, others⟩)
  split
  · refine ⟨rfl, List.forall_mem_cons.2 ⟨rfl, List.forall_mem_cons.2 ⟨rfl, fun c hc => ?_⟩⟩⟩
    exact (List.mem_append.1 hc).elim (zeros c) (ds.all c)
  · refine ((some 1 Nat.one_pos).append ?_).append
      (List.forall_mem_cons.2 ⟨rfl, (isNumberText_toString _).chars⟩)
    split
    · exact nofun
    · exact List.forall_mem_cons.2 ⟨rfl, others⟩

theorem isNumberText_render (n : Number) : IsNumberText n.render.toList := by
  cases n with
  | int i => exact isNumberText_toString i
  | float x =>
    rw [Number.render]
    cases x with
    | nan => exact Or.inl ⟨rfl, List.all_eq_true.1 rfl⟩
    | infinity negative =>
      cases negative
      · exact Or.inl ⟨rfl, List.all_eq_true.1 rfl⟩
      · exact Or.inr ⟨_, rfl, rfl, List.all_eq_true.1 rfl⟩
    | finite negative mantissa exponent =>
      have magnitude : IsMagnitude (if mantissa = 0 then '0' :: Number.layout.wholeEnd else
          Number.layout.decimal (Binary64.shortest mantissa exponent).1 (Binary64.shortest mantissa exponent).2) := by
        split
        · exact ⟨rfl, List.all_eq_true.1 rfl⟩
        · exact isMagnitude_decimal _ _
      have text : (Number.layout.render (.finite negative mantissa exponent)).toList =
          if negative then '-' :: (if mantissa = 0 then '0' :: Number.layout.wholeEnd else
            Number.layout.decimal (Binary64.shortest mantissa exponent).1 (Binary64.shortest mantissa exponent).2)
          else if mantissa = 0 then '0' :: Number.layout.wholeEnd else
            Number.layout.decimal (Binary64.shortest mantissa exponent).1 (Binary64.shortest mantissa exponent).2 :=
        String.toList_ofList
      rw [text]
      cases negative
      · exact Or.inl magnitude
      · exact Or.inr ⟨_, rfl, magnitude⟩

/-! ## Texts without quotes -/

theorem isGap_of_isNumberChar {c : Char} (h : isNumberChar c) : isGap c = false := by
  refine Bool.eq_false_iff.2 fun gap => ?_
  simp only [isGap, isBlank, isBreakOrEnd, isBreak, isEnd, Bool.or_eq_true, beq_iff_eq] at gap
  rcases gap with (rfl | rfl) | (rfl | rfl) | rfl <;> exact absurd h (by decide)

theorem hasIndicatorAfter_numberText {b : Char} {cs : List Char} (h : ∀ c ∈ cs, isNumberChar c) :
    Quoting.hasIndicatorAfter b cs = false := by
  induction cs generalizing b with
  | nil => rfl
  | cons c cs ih =>
    have colon : c ≠ ':' := by rintro rfl; exact absurd (h ':' List.mem_cons_self) (by decide)
    have sign : c ≠ '#' := by rintro rfl; exact absurd (h '#' List.mem_cons_self) (by decide)
    rw [Quoting.hasIndicatorAfter, ih fun d hd => h d (List.mem_cons_of_mem c hd)]
    simp [colon, sign]

theorem plainForm_of_isNumberText {cs : List Char} (h : IsNumberText cs) : PlainForm cs := by
  have chars := h.chars
  refine ⟨⟨fun c hc gap => ?_, hasIndicatorAfter_numberText chars, fun last => ?_⟩, ?_⟩
  · rw [isGap_of_isNumberChar (chars c hc)] at gap
    cases gap
  · exact absurd (chars ' ' (List.mem_of_getLast? last)) (by decide)
  · have begins {c : Char} {r : List Char} (hc : isNumberChar c) : isGap c = false ∧
        Quoting.startIndicators.contains c = false := by
      refine ⟨isGap_of_isNumberChar hc, Bool.eq_false_iff.2 fun start => ?_⟩
      have start : c ∈ Quoting.startIndicators := by simpa using start
      have none : Quoting.startIndicators.any isNumberChar = false := rfl
      exact List.any_eq_false.1 none c start hc
    rcases h with ⟨first, all⟩ | ⟨body, rfl, first, all⟩
    · cases cs with
      | nil => cases first
      | cons c r =>
        obtain ⟨ink, start⟩ := begins (r := r) (all c List.mem_cons_self)
        have first : (c.isDigit || c == '.') = true := first
        refine ⟨c, r, rfl, ink, start, ?_⟩
        rintro (rfl | rfl | rfl) <;> exact absurd first (by decide)
    · cases body with
      | nil => cases first
      | cons c r =>
        exact ⟨'-', c :: r, rfl, rfl, by decide, fun _ => ⟨c, r, rfl, isGap_of_isNumberChar (all c List.mem_cons_self)⟩⟩

/-- **Scalars are spelled.** -/
theorem inscription_scalarText {value : Option Scalar} (legible : ∀ s, value = some (.string s) → Legible s) :
    Inscription (scalarRead value).toList (scalarStyle value) (scalarText value).toList := by
  rcases value with - | (s | b | n)
  · exact .plain (Quoting.plainForm_of_allowsPlain (by decide +kernel) (by decide))
  · exact Quoting.inscription_scalar (legible s rfl)
  · cases b <;> exact .plain (Quoting.plainForm_of_allowsPlain (by decide +kernel) (by decide))
  · exact .plain (plainForm_of_isNumberText (isNumberText_render n))

/-! ## Nothing -/

namespace PlainScalar

/-- A text that nothing frames: no separator at its start, no line end, and no mark of a document. -/
structure Unframed (cs : List Char) : Prop where
  first : ∀ c ∈ cs.head?, separates c = false ∧ c ≠ '\uFEFF'
  line : ∀ c ∈ cs, endsLine c = false
  start : ¬['-', '-', '-'].isPrefixOf cs

theorem dropDocumentEnds_go {fuel : Nat} {cs : List Char} (h : ∀ c ∈ cs, endsLine c = false) :
    dropDocumentEnds.go fuel cs = cs := by
  unfold dropDocumentEnds.go
  split
  · rename_i c rest
    rw [h c (by simp)]
    rfl
  · rfl

theorem trimmed_eq {cs : List Char} (first : ∀ c ∈ cs.head?, separates c = false)
    (line : ∀ c ∈ cs, endsLine c = false) : trimmed cs = cs := by
  have kept {p : Char → Bool} {ds : List Char} (h : ∀ c ∈ ds.head?, p c = false) : ds.dropWhile p = ds := by
    cases ds with
    | nil => rfl
    | cons d ds => rw [List.dropWhile_cons_of_neg (by simp [h d rfl])]
  rw [trimmed, kept first, kept, List.reverse_reverse]
  intro c hc
  exact line c (List.mem_reverse.1 (List.mem_of_mem_head? hc))

theorem Unframed.eq {cs : List Char} (h : Unframed cs) : unframed cs = cs := by
  have ends : dropDocumentEnds cs = cs := by
    rw [dropDocumentEnds, dropDocumentEnds_go, List.reverse_reverse]
    exact fun c hc => h.line c (List.mem_reverse.1 hc)
  have start : dropDocumentStart cs = cs := by
    unfold dropDocumentStart
    split
    · exact absurd rfl h.start
    · rfl
  unfold unframed
  split
  · exact absurd rfl (h.first '\uFEFF' rfl).2
  · dsimp only
    rw [trimmed_eq (fun c hc => (h.first c hc).1) h.line, ends, start]

/-- A text that nothing frames stands for nothing only if it is one of the texts of nothing. -/
theorem read_ne_none {s : String} (h : Unframed s.toList) (other : nullTexts.contains s = false) :
    read s ≠ none := by
  unfold read
  dsimp only
  rw [h.eq, String.ofList_toList, other]
  simp only [Bool.false_eq_true, if_false]
  split
  · simp
  · split <;> simp

end PlainScalar

theorem unframed_of_isNumberText {cs : List Char} (h : IsNumberText cs) : PlainScalar.Unframed cs := by
  have chars := h.chars
  have apart {c : Char} (hc : isNumberChar c) : PlainScalar.separates c = false ∧ c ≠ '\uFEFF' := by
    refine ⟨Bool.eq_false_iff.2 fun separates => ?_, by rintro rfl; exact absurd hc (by decide)⟩
    simp only [PlainScalar.separates, PlainScalar.endsLine, Bool.or_eq_true, beq_iff_eq] at separates
    rcases separates with (rfl | rfl) | (((rfl | rfl) | rfl) | rfl) | rfl <;> exact absurd hc (by decide)
  refine ⟨fun c hc => apart (chars c (List.mem_of_mem_head? hc)), fun c hc => ?_, fun start => ?_⟩
  · have := (apart (chars c hc)).1
    simp only [PlainScalar.separates, Bool.or_eq_false_iff] at this
    exact this.2
  · obtain ⟨rest, rfl⟩ := List.isPrefixOf_iff_prefix.1 start
    rcases h with ⟨first, -⟩ | ⟨body, same, first, -⟩
    · exact absurd first (by simp)
    · cases same
      exact absurd first (by simp)

/-- A string that is written without quotes is framed by nothing. -/
theorem unframed_of_allowsPlain {cs : List Char} (h : Quoting.allowsPlain cs) (nonempty : cs ≠ []) :
    PlainScalar.Unframed cs := by
  have form := Quoting.plainForm_of_allowsPlain h nonempty
  simp only [Quoting.allowsPlain, Bool.and_eq_true, Bool.not_eq_true', Quoting.isSpecial,
    Bool.or_eq_false_iff, Bool.not_eq_false'] at h
  obtain ⟨⟨⟨-, lines⟩, printable, -⟩, indicator⟩ := h
  obtain ⟨c, r, rfl, ink, -⟩ := form.begins
  have line (d : Char) (hd : d ∈ c :: r) : PlainScalar.endsLine d = false := by
    have none : Quoting.isLineEnd d = false := by simpa using List.any_eq_false.1 lines d hd
    exact none
  refine ⟨fun d hd => ?_, line, fun start => ?_⟩
  · obtain rfl : c = d := by simpa using hd
    have blank : isBlank c = false := by
      simp only [isGap, Bool.or_eq_false_iff] at ink
      exact ink.1
    refine ⟨?_, ?_⟩
    · rw [PlainScalar.separates, line c List.mem_cons_self]
      simpa [isBlank] using blank
    · rintro rfl
      exact absurd (List.all_eq_true.1 printable '\uFEFF' List.mem_cons_self) (by decide)
  · rw [Quoting.hasIndicator, start] at indicator
    simp at indicator

/-- **Only a missing value is read as none.** -/
theorem scalarBack_eq_none_iff (value : Option Scalar) : scalarBack value = none ↔ value = none := by
  rcases value with - | (s | b | n)
  · exact iff_of_true (by decide) rfl
  · refine iff_of_false (fun nothing => ?_) (Option.some_ne_none _)
    rw [scalarBack, Document.scalarValue, scalarStyle] at nothing
    by_cases plain : Quoting.standsPlain s
    · rw [Quoting.styleOf, if_pos plain, if_pos (by rfl)] at nothing
      simp only [Quoting.standsPlain, Bool.and_eq_true, Bool.not_eq_true'] at plain
      obtain ⟨-, clear, allowed⟩ := plain
      have other : PlainScalar.nullTexts.contains s = false := by
        simp only [PlainScalar.isAmbiguous, Bool.or_eq_false_iff] at clear
        exact clear.1.1.1.1
      refine PlainScalar.read_ne_none (unframed_of_allowsPlain allowed fun empty => ?_) other nothing
      rw [String.toList_eq_nil_iff.1 empty] at other
      exact absurd other (by decide)
    · have quoted : Quoting.styleOf s ≠ .plain := by
        rw [Quoting.styleOf, if_neg plain]
        split <;> simp
      rw [decide_eq_false quoted] at nothing
      cases nothing
  · refine iff_of_false ?_ (Option.some_ne_none _)
    cases b <;> decide
  · refine iff_of_false (fun nothing => ?_) (Option.some_ne_none _)
    have unread : PlainScalar.read n.render = none := by
      simpa only [scalarBack, Document.scalarValue, scalarStyle, scalarRead, Scalar.render, decide_true, if_true]
        using nothing
    refine PlainScalar.read_ne_none (unframed_of_isNumberText (isNumberText_render n)) ?_ unread
    refine Bool.eq_false_iff.2 fun nothing => ?_
    have chars := (isNumberText_render n).chars
    have nothing : n.render ∈ PlainScalar.nullTexts := by simpa using nothing
    simp only [PlainScalar.nullTexts, List.mem_cons, List.not_mem_nil, or_false] at nothing
    rcases nothing with same | same | same | same | same
    · have text := isNumberText_render n
      rw [same] at text
      rcases text with ⟨first, -⟩ | ⟨body, empty, -⟩
      · cases first
      · cases empty
    all_goals
      rw [same] at chars
      exact absurd (List.all_eq_true.2 chars) (by decide)

end LayeredConfig.Yaml
