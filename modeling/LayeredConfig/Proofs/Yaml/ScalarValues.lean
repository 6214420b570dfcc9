import LayeredConfig.Proofs.Decimal.Notation
import LayeredConfig.Proofs.Yaml.ScalarTexts

/-!
# Scalars are read as they were written

A number that a text stands for fits 64 bits or is a double (`proper_read`), and the text that is written of
such a number stands for it (`read_render`). A string is written without quotes only where its text stands for
itself. So every scalar value is read back (`scalarBack_eq`).
-/

namespace LayeredConfig

/-- A number that a text can stand for. -/
def Number.Proper : Number → Prop
  | .int i => minInt ≤ i ∧ i ≤ maxInt
  | .float x => x.Proper

/-- A value that a text can stand for. -/
def Scalar.Proper : Scalar → Prop
  | .number n => n.Proper
  | _ => True

namespace Yaml

open Decimal

namespace PlainScalar

/-! ## What is read -/

theorem proper_readDouble? {cs : List Char} {x : Binary64} (read : readDouble? cs = some x) : x.Proper := by
  unfold readDouble? at read
  dsimp only at read
  split at read
  · cases read
    trivial
  split at read
  · cases read
    trivial
  split at read
  · cases read
  split at read
  · cases read
  · split at read
    · cases read
      exact Binary64.proper_roundDecimal _ _ _
    · cases read

theorem proper_readNumber? {cs : List Char} {n : Number} (read : readNumber? cs = some n) : n.Proper := by
  have float (read : (readDouble? cs).map .float = some n) : n.Proper := by
    obtain ⟨x, double, rfl⟩ := Option.map_eq_some_iff.1 read
    exact proper_readDouble? double
  unfold readNumber? at read
  split at read
  · split at read
    · rename_i fits
      cases read
      exact fits
    · split at read
      · cases read
      · exact float read
  · exact float read

theorem proper_read {text : String} {v : Scalar} (h : read text = some v) : v.Proper := by
  unfold read at h
  dsimp only at h
  split at h
  · cases h
  · split at h
    · cases h
      trivial
    · split at h
      · rename_i number
        cases h
        exact proper_readNumber? number
      · cases h
        trivial

end PlainScalar

/-- **What is read is proper.** -/
theorem proper_scalarValue {text : String} {plain : Bool} {v : Scalar}
    (h : Document.scalarValue text plain = some v) : v.Proper := by
  unfold Document.scalarValue at h
  split at h
  · exact PlainScalar.proper_read h
  · cases h
    trivial

/-! ## Texts of numbers -/

/-- The texts that stand for something else than a number. -/
def fixedTexts : List String := PlainScalar.nullTexts ++ ["true", "True", "TRUE", "false", "False", "FALSE"]

theorem not_isNumberText_fixed {s : String} (h : s ∈ fixedTexts) : ¬IsNumberText s.toList := by
  intro text
  have strange : ∀ w ∈ fixedTexts, w = "" ∨ w.toList.any fun c => !isNumberChar c := by decide
  rcases strange s h with rfl | other
  · rcases text with ⟨first, -⟩ | ⟨body, empty, -⟩
    · cases first
    · cases empty
  · obtain ⟨c, hc, other⟩ := List.any_eq_true.1 other
    rw [text.chars c hc] at other
    cases other

/-- The text of a number stands for the number that is read of it. -/
theorem PlainScalar.read_of_isNumberText {s : String} (text : IsNumberText s.toList) {n : Number}
    (number : readNumber? s.toList = some n) : read s = some (.number n) := by
  have other {w : String} (h : w ∈ fixedTexts) : s ≠ w := by
    rintro rfl
    exact not_isNumberText_fixed h text
  have null : nullTexts.contains s = false := by
    refine Bool.eq_false_iff.2 fun null => other (List.mem_append_left _ ?_) rfl
    simpa using null
  have boolean : readBoolean? s = none := by
    simp [readBoolean?, other (w := "true") (by decide), other (w := "True") (by decide),
      other (w := "TRUE") (by decide), other (w := "false") (by decide), other (w := "False") (by decide),
      other (w := "FALSE") (by decide)]
  unfold read
  dsimp only
  rw [(unframed_of_isNumberText text).eq, String.ofList_toList, null, boolean, number]
  rfl

theorem splitSign_of_isMagnitude {cs : List Char} (h : IsMagnitude cs) : splitSign cs = (false, cs) := by
  obtain ⟨first, -⟩ := h
  cases cs with
  | nil => cases first
  | cons c cs =>
    have first : (c.isDigit || c == '.') = true := first
    have minus : c ≠ '-' := by rintro rfl; cases first
    have plus : c ≠ '+' := by rintro rfl; cases first
    simp [splitSign, minus, plus]

/-! ## Integers -/

/-- The digits of a positive number have no zero in front. -/
theorem head?_toDigits {n : Nat} (positive : 0 < n) : (Nat.toDigits 10 n).head? ≠ some '0' := by
  induction n using Nat.strongRecOn with
  | ind n ih =>
    by_cases digit : n < 10
    · rw [Nat.toDigits_of_lt_base digit]
      have each : ∀ d : Fin 10, 0 < d.val → [Nat.digitChar d].head? ≠ some '0' := by decide
      exact each ⟨n, digit⟩ positive
    · rw [Nat.toDigits_of_base_le (by decide) (Nat.le_of_not_lt digit),
        List.head?_append_of_ne_nil _ Nat.toDigits_ne_nil]
      exact ih (n / 10) (by omega) (by omega)

theorem isPaddedDigits_toDigits (n : Nat) : PlainScalar.isPaddedDigits (Nat.toDigits 10 n) = false := by
  unfold PlainScalar.isPaddedDigits
  rw [splitSign_of_digits Nat.toDigits_ne_nil isDigit_toDigits]
  dsimp only
  rcases Nat.eq_zero_or_pos n with rfl | positive
  · rfl
  · split
    · rename_i same
      exact absurd (congrArg List.head? same) (head?_toDigits positive)
    · rfl

/-- Digits have no base in front. -/
theorem readMagnitude?_toDigits (n : Nat) : PlainScalar.readMagnitude? (Nat.toDigits 10 n) = some n := by
  have all := isDigit_toDigits (n := n)
  have value := readNat?_of_digits Nat.toDigits_ne_nil all
  have padded := isPaddedDigits_toDigits n
  rw [ofDigits_toDigits] at value
  generalize Nat.toDigits 10 n = ds at all value padded
  unfold PlainScalar.readMagnitude?
  split
  · exact absurd (all 'x' (by simp)) (by decide)
  · exact absurd (all 'o' (by simp)) (by decide)
  · exact absurd (all 'b' (by simp)) (by decide)
  · rw [padded]
    exact value

theorem readNumber?_toString {i : Int} (fits : Number.minInt ≤ i ∧ i ≤ Number.maxInt) :
    PlainScalar.readNumber? (toString i).toList = some (.int i) := by
  have integer : PlainScalar.readInteger? (toString i).toList = some i := by
    rw [PlainScalar.readInteger?, splitSign_toString]
    dsimp only
    rw [readMagnitude?_toDigits]
    exact congrArg some (signed_natAbs i)
  rw [PlainScalar.readNumber?, integer]
  exact if_pos fits

/-! ## Doubles -/

section

variable {cs body : List Char} {negative : Bool} (sign : splitSign cs = (negative, body))
  (mark : ∃ c ∈ body, c.isDigit = false)

include sign mark

/-- A text of a number with something else than digits is no integer. -/
theorem readInteger?_eq_none (chars : ∀ c ∈ body, isNumberChar c) : PlainScalar.readInteger? cs = none := by
  have base {c : Char} (strange : isNumberChar c = false) : c ∉ body := fun hc => by
    rw [chars c hc] at strange
    cases strange
  have none : PlainScalar.readMagnitude? body = none := by
    unfold PlainScalar.readMagnitude?
    split
    · exact absurd (by simp) (base (c := 'x') rfl)
    · exact absurd (by simp) (base (c := 'o') rfl)
    · exact absurd (by simp) (base (c := 'b') rfl)
    · rw [readNat?_eq_none mark, ite_self]
  rw [PlainScalar.readInteger?, sign]
  dsimp only
  rw [none]
  rfl

theorem isPaddedDigits_eq_false : PlainScalar.isPaddedDigits cs = false := by
  rw [PlainScalar.isPaddedDigits, sign]
  dsimp only
  split
  · rename_i d ds
    obtain ⟨c, hc, other⟩ := mark
    refine List.all_eq_false.2 ⟨c, (List.mem_cons.1 hc).resolve_left ?_, ?_⟩
    · rintro rfl
      cases other
    · rw [show isDigit c = false from other]
      exact Bool.false_ne_true
  · rfl

/-- A text with the parts of a decimal stands for a double. -/
theorem readDouble?_of_parts {whole fraction : List Char} {exponent : Int}
    (parts : readParts? body = some (whole, fraction, exponent)) {x : Binary64} (finite : x.isFinite)
    (value : Binary64.roundDecimal negative (ofDigits 10 (whole ++ fraction)) (exponent - fraction.length) = x) :
    PlainScalar.readDouble? cs = some x := by
  have infinite : [".inf", ".Inf", ".INF"].contains (String.ofList body) = false := by
    refine Bool.eq_false_iff.2 fun word => ?_
    have unread : ∀ w ∈ [".inf", ".Inf", ".INF"], readParts? w.toList = none := by decide
    have none := unread (String.ofList body) (by simpa using word)
    rw [String.toList_ofList, parts] at none
    cases none
  have undefined : [".nan", ".NaN", ".NAN"].contains (String.ofList cs) = false := by
    refine Bool.eq_false_iff.2 fun word => ?_
    have unread : ∀ w ∈ [".nan", ".NaN", ".NAN"], readParts? (splitSign w.toList).2 = none := by decide
    have none := unread (String.ofList cs) (by simpa using word)
    rw [String.toList_ofList, sign, parts] at none
    cases none
  unfold PlainScalar.readDouble?
  rw [sign]
  dsimp only
  rw [infinite, undefined, isPaddedDigits_eq_false sign mark, parts]
  dsimp only
  rw [value, finite]
  rfl

end

/-- A decimal is marked by its point or its exponent. -/
theorem mark_decimal (digits : Nat) (scale : Int) :
    ∃ c ∈ Number.layout.decimal digits scale, c.isDigit = false := by
  rw [Binary64.Layout.decimal]
  dsimp only
  split
  · exact ⟨'.', List.mem_append_right _ List.mem_cons_self, rfl⟩
  split
  · exact ⟨'.', by simp, rfl⟩
  split
  · exact ⟨'.', by simp, rfl⟩
  · exact ⟨'e', by simp, rfl⟩

/-- **The text of a finite double is read as it.** -/
theorem readDouble?_render {negative : Bool} {mantissa : Nat} {exponent : Int}
    (proper : Binary64.IsDouble mantissa exponent) :
    PlainScalar.readNumber? (Number.layout.render (.finite negative mantissa exponent)).toList =
      some (.float (.finite negative mantissa exponent)) := by
  let body := if mantissa = 0 then '0' :: Number.layout.wholeEnd else
    Number.layout.decimal (Binary64.shortest mantissa exponent).1 (Binary64.shortest mantissa exponent).2
  have text : (Number.layout.render (.finite negative mantissa exponent)).toList =
      if negative then '-' :: body else body := String.toList_ofList
  have magnitude : IsMagnitude body := by
    dsimp only [body]
    split
    · exact ⟨rfl, List.all_eq_true.1 rfl⟩
    · exact isMagnitude_decimal _ _
  have mark : ∃ c ∈ body, c.isDigit = false := by
    dsimp only [body]
    split
    · exact ⟨'.', by decide, rfl⟩
    · exact mark_decimal _ _
  have sign : splitSign (if negative then '-' :: body else body) = (negative, body) := by
    cases negative
    · exact splitSign_of_isMagnitude magnitude
    · rfl
  have double : PlainScalar.readDouble? (if negative then '-' :: body else body) =
      some (.finite negative mantissa exponent) := by
    rcases Nat.eq_zero_or_pos mantissa with rfl | positive
    · obtain rfl : exponent = Binary64.minExponent := proper.full.resolve_left (by decide)
      have parts : readParts? body = some (['0'], ['0'], 0) := rfl
      exact readDouble?_of_parts sign mark parts rfl rfl
    · obtain ⟨some, near⟩ := Binary64.roundsTo_shortest proper positive
      obtain ⟨whole, fraction, places, parts, some', value⟩ :=
        Binary64.spells_decimal (show Number.layout.pointZero from rfl) some (Binary64.shortest mantissa exponent).2
      have here : body = Number.layout.decimal _ _ := if_neg (Nat.ne_of_gt positive)
      rw [← here] at parts
      exact readDouble?_of_parts sign mark parts rfl
        (Binary64.roundDecimal_eq negative some' proper positive (value ▸ near))
  rw [text, PlainScalar.readNumber?, readInteger?_eq_none sign mark magnitude.all, double]
  rfl

/-! ## Scalars -/

/-- **The text of a number is read as it.** -/
theorem read_render {n : Number} (proper : n.Proper) : PlainScalar.read n.render = some (.number n) := by
  refine PlainScalar.read_of_isNumberText (isNumberText_render n) ?_
  cases n with
  | int i => exact readNumber?_toString proper
  | float x =>
    cases x with
    | nan => rfl
    | infinity negative => cases negative <;> rfl
    | finite negative mantissa exponent => exact readDouble?_render proper

/-- A string that stands without quotes is read as it. -/
theorem read_of_standsPlain {s : String} (plain : Quoting.standsPlain s) : PlainScalar.read s = some (.string s) := by
  simp only [Quoting.standsPlain, Bool.and_eq_true, Bool.not_eq_true'] at plain
  obtain ⟨-, clear, allowed⟩ := plain
  simp only [PlainScalar.isAmbiguous, Bool.or_eq_false_iff] at clear
  obtain ⟨⟨⟨⟨null, boolean⟩, integer⟩, double⟩, -⟩ := clear
  have boolean : PlainScalar.readBoolean? s = none := by simpa using boolean
  have double : PlainScalar.readDouble? s.toList = none := by simpa using double
  have nonempty : s.toList ≠ [] := fun empty => by
    rw [String.toList_eq_nil_iff.1 empty] at null
    cases null
  -- An integer would be too wide for any number, and is no double.
  have number : PlainScalar.readNumber? s.toList = none := by
    unfold PlainScalar.readNumber?
    cases wide : PlainScalar.readInteger? s.toList with
    | none => rw [double]; rfl
    | some i =>
      rw [wide] at integer
      have wide : ¬(-(Nat.pow 2 127 : Int) ≤ i ∧ i < Nat.pow 2 128) := of_decide_eq_false integer
      dsimp only
      rw [if_neg, double, Option.map_none, ite_self]
      simp only [Number.minInt, Number.maxInt, Nat.pow_eq] at wide ⊢
      push_cast at wide ⊢
      omega
  unfold PlainScalar.read
  dsimp only
  rw [(unframed_of_allowsPlain allowed nonempty).eq, String.ofList_toList, null, boolean, number]
  rfl

/-- **Scalars are read back.** -/
theorem scalarBack_eq {value : Option Scalar} (proper : ∀ v ∈ value, v.Proper) : scalarBack value = value := by
  rcases value with - | (s | b | n)
  · decide
  · rw [scalarBack, Document.scalarValue, scalarStyle, scalarRead, Scalar.render, Quoting.styleOf]
    by_cases plain : Quoting.standsPlain s
    · rw [if_pos plain, if_pos (decide_eq_true rfl), read_of_standsPlain plain]
    · rw [if_neg plain, if_neg]
      split <;> decide
  · cases b <;> decide
  · have plain : scalarStyle (some (.number n)) = .plain := rfl
    rw [scalarBack, plain, Document.scalarValue, if_pos (decide_eq_true rfl)]
    exact read_render (proper _ rfl)

end Yaml

end LayeredConfig
