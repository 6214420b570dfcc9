import LayeredConfig.Decimal.Notation
import LayeredConfig.Decimal.Reading
import LayeredConfig.Proofs.Decimal.Shortest

/-!
# Numbers read back

The digits of a natural number stand for it, and the text of an integer is read as it (`readInt?_toString`). In
each of its four spellings a decimal is split into parts that have its value (`spells_decimal`).
-/

namespace LayeredConfig

namespace Decimal

/-! ## Digits -/

theorem digitValue_of_isDigit {c : Char} (h : c.isDigit) : digitValue c = c.toNat - '0'.toNat := by
  rw [digitValue, if_pos (show isDigit c = true from h)]

theorem ofDigits_eq {ds : List Char} (digits : ∀ c ∈ ds, c.isDigit) : ofDigits 10 ds = Nat.ofDigitChars 10 ds 0 := by
  rw [ofDigits, Nat.ofDigitChars_eq_foldl]
  refine List.foldl_ext _ _ _ fun n c hc => ?_
  rw [digitValue_of_isDigit (digits c hc), Nat.mul_comm]

theorem isDigit_toDigits {n : Nat} : ∀ c ∈ Nat.toDigits 10 n, c.isDigit := fun _ =>
  Nat.isDigit_of_mem_toDigits (by decide) (by decide)

theorem isDigit_replicate {n : Nat} : ∀ c ∈ List.replicate n '0', c.isDigit := fun c hc => by
  rw [List.eq_of_mem_replicate hc]
  rfl

theorem isDigit_append {ds es : List Char} (h : ∀ c ∈ ds, c.isDigit) (h' : ∀ c ∈ es, c.isDigit) :
    ∀ c ∈ ds ++ es, c.isDigit := fun c hc => (List.mem_append.1 hc).elim (h c) (h' c)

theorem ofDigits_toDigits (n : Nat) : ofDigits 10 (Nat.toDigits 10 n) = n := by
  rw [ofDigits_eq isDigit_toDigits, Nat.ofDigitChars_ten_toDigits]

/-- Each zero behind the digits is a factor of ten. -/
theorem ofDigits_append_zeros {ds : List Char} (digits : ∀ c ∈ ds, c.isDigit) (n : Nat) :
    ofDigits 10 (ds ++ List.replicate n '0') = ofDigits 10 ds * 10 ^ n := by
  rw [ofDigits_eq (isDigit_append digits isDigit_replicate), ofDigits_eq digits, Nat.ofDigitChars_append,
    Nat.ofDigitChars_replicate_zero, Nat.mul_comm]

/-- Zeros in front of the digits are none. -/
theorem ofDigits_zeros_append {ds : List Char} (digits : ∀ c ∈ ds, c.isDigit) (n : Nat) :
    ofDigits 10 (List.replicate n '0' ++ ds) = ofDigits 10 ds := by
  rw [ofDigits_eq (isDigit_append isDigit_replicate digits), ofDigits_eq digits, Nat.ofDigitChars_append,
    Nat.ofDigitChars_replicate_zero, Nat.mul_zero]

theorem isDigitOf_ten (c : Char) : isDigitOf 10 c = c.isDigit := by
  cases digit : c.isDigit with
  | true =>
    have most : c.toNat ≤ 57 := by
      simp only [Char.isDigit, Bool.and_eq_true, decide_eq_true_eq] at digit
      exact digit.2
    rw [isDigitOf, digitValue_of_isDigit digit, show isDigit c = true from digit]
    simp
    omega
  | false =>
    have other : isDigit c = false := digit
    rw [isDigitOf, digitValue, other]
    simp only [Bool.false_eq_true, if_false, Bool.false_or, Bool.and_eq_false_iff, decide_eq_false_iff_not]
    by_cases low : 'a' ≤ c ∧ c ≤ 'f'
    · rw [if_pos low]
      exact .inr (by omega)
    · rw [if_neg low]
      by_cases high : 'A' ≤ c ∧ c ≤ 'F'
      · rw [if_pos high]
        exact .inr (by omega)
      · exact .inl (Bool.or_eq_false_iff.2 ⟨by simpa using low, by simpa using high⟩)

theorem readNat?_of_digits {ds : List Char} (nonempty : ds ≠ []) (digits : ∀ c ∈ ds, c.isDigit) :
    readNat? 10 ds = some (ofDigits 10 ds) := by
  have all : ds.all (isDigitOf 10) := List.all_eq_true.2 fun c hc => (isDigitOf_ten c).trans (digits c hc)
  rw [readNat?, all, List.isEmpty_eq_false_iff.2 nonempty]
  rfl

/-- A text with something else than digits stands for no natural number. -/
theorem readNat?_eq_none {cs : List Char} (mark : ∃ c ∈ cs, c.isDigit = false) : readNat? 10 cs = none := by
  obtain ⟨c, hc, other⟩ := mark
  have some : cs.all (isDigitOf 10) = false := by
    refine List.all_eq_false.2 ⟨c, hc, ?_⟩
    rw [isDigitOf_ten, other]
    exact Bool.false_ne_true
  rw [readNat?, some, Bool.and_false]
  rfl

/-- A text that starts with a digit has no sign. -/
theorem splitSign_of_digit {c : Char} (h : c.isDigit) (cs : List Char) : splitSign (c :: cs) = (false, c :: cs) := by
  unfold splitSign
  split
  · rename_i same
    cases same
    cases h
  · rename_i same
    cases same
    cases h
  · rfl

theorem splitSign_of_digits {ds : List Char} (nonempty : ds ≠ []) (digits : ∀ c ∈ ds, c.isDigit) :
    splitSign ds = (false, ds) := by
  obtain ⟨c, r, rfl⟩ := List.exists_cons_of_ne_nil nonempty
  exact splitSign_of_digit (digits c List.mem_cons_self) r

/-- The text of an integer is its magnitude behind its sign. -/
theorem splitSign_toString (i : Int) : splitSign (toString i).toList = (decide (i < 0), Nat.toDigits 10 i.natAbs) := by
  rw [Int.toString_eq_repr, Int.repr_eq_if]
  split
  · rename_i positive
    rw [Nat.repr_eq_ofList_toDigits, String.toList_ofList, splitSign_of_digits Nat.toDigits_ne_nil isDigit_toDigits,
      decide_eq_false (by omega), show i.toNat = i.natAbs by omega]
  · rename_i negative
    rw [String.toList_append, Nat.repr_eq_ofList_toDigits, String.toList_ofList, String.toList_ofList,
      decide_eq_true (by omega), show (-i).toNat = i.natAbs by omega]
    rfl

theorem signed_natAbs (i : Int) : (if decide (i < 0) then -(i.natAbs : Int) else i.natAbs) = i := by
  simp only [decide_eq_true_eq]
  split <;> omega

/-- **The text of an integer is read as it.** -/
theorem readInt?_toString (i : Int) : readInt? (toString i).toList = some i := by
  rw [readInt?, splitSign_toString]
  dsimp only
  rw [readNat?_of_digits Nat.toDigits_ne_nil isDigit_toDigits, ofDigits_toDigits]
  exact congrArg some (signed_natAbs i)

/-! ## Parts -/

/-- Digits end where something else begins. -/
theorem span_digits {ds : List Char} (digits : ∀ c ∈ ds, c.isDigit) (rest : List Char)
    (stop : ∀ c ∈ rest.head?, c.isDigit = false) :
    (ds ++ rest).takeWhile isDigit = ds ∧ (ds ++ rest).dropWhile isDigit = rest := by
  have digits : ∀ c ∈ ds, isDigit c := digits
  rw [List.takeWhile_append_of_pos digits, List.dropWhile_append_of_pos digits]
  cases rest with
  | nil => exact ⟨List.append_nil ds, rfl⟩
  | cons c rest =>
    have other : ¬isDigit c = true := by
      rw [show isDigit c = false from stop c rfl]
      exact Bool.false_ne_true
    rw [List.takeWhile_cons_of_neg other, List.dropWhile_cons_of_neg other]
    exact ⟨List.append_nil ds, rfl⟩

/-- Digits on both sides of a point. -/
theorem readParts?_point {whole fraction : List Char} (nonempty : whole ≠ []) (digits : ∀ c ∈ whole, c.isDigit)
    (digits' : ∀ c ∈ fraction, c.isDigit) : readParts? (whole ++ '.' :: fraction) = some (whole, fraction, 0) := by
  obtain ⟨before, behind⟩ := span_digits digits ('.' :: fraction) (by rintro _ ⟨⟩; rfl)
  obtain ⟨after, last⟩ := span_digits digits' [] nofun
  rw [List.append_nil] at after last
  simp [readParts?, before, behind, after, last, nonempty]

/-- Digits with an exponent. -/
theorem readParts?_exponent {whole fraction : List Char} (nonempty : whole ≠ []) (digits : ∀ c ∈ whole, c.isDigit)
    (digits' : ∀ c ∈ fraction, c.isDigit) (exponent : Int) :
    readParts? (whole ++ (if fraction.isEmpty then [] else '.' :: fraction) ++ 'e' :: (toString exponent).toList) =
      some (whole, fraction, exponent) := by
  have read := readInt?_toString exponent
  generalize (toString exponent).toList = text at read ⊢
  rw [List.append_assoc]
  by_cases none : fraction = []
  · obtain ⟨before, behind⟩ := span_digits digits ('e' :: text) (by rintro _ ⟨⟩; rfl)
    simp [readParts?, before, behind, none, nonempty, read]
  · obtain ⟨before, behind⟩ := span_digits digits ('.' :: (fraction ++ 'e' :: text)) (by rintro _ ⟨⟩; rfl)
    obtain ⟨after, last⟩ := span_digits digits' ('e' :: text) (by rintro _ ⟨⟩; rfl)
    simp [readParts?, before, behind, after, last, none, nonempty, read]

end Decimal

namespace Binary64

open Decimal

/-- A text is split into parts that have a value. -/
def Spells (cs : List Char) (digits : Nat) (scale : Int) : Prop :=
  ∃ whole fraction exponent, readParts? cs = some (whole, fraction, exponent) ∧
    0 < ofDigits 10 (whole ++ fraction) ∧
    (ofDigits 10 (whole ++ fraction) * 10 ^ (exponent - fraction.length) : ℚ) = digits * 10 ^ scale

/-- **The spelling of a decimal** has its value. -/
theorem spells_decimal {layout : Layout} (points : layout.pointZero) {digits : Nat} (some : 0 < digits) (scale : Int) :
    Spells (layout.decimal digits scale) digits scale := by
  have all : ∀ c ∈ Nat.toDigits 10 digits, c.isDigit := isDigit_toDigits
  have value := ofDigits_toDigits digits
  have nonempty : Nat.toDigits 10 digits ≠ [] := Nat.toDigits_ne_nil
  rw [Layout.decimal]
  dsimp only
  generalize Nat.toDigits 10 digits = ds at all value nonempty
  have front (n : Nat) : ∀ c ∈ ds.take n, c.isDigit := fun c hc => all c (List.mem_of_mem_take hc)
  have back (n : Nat) : ∀ c ∈ ds.drop n, c.isDigit := fun c hc => all c (List.mem_of_mem_drop hc)
  have positive := List.length_pos_iff.2 nonempty
  split
  · rename_i whole
    obtain ⟨n, rfl⟩ := Int.eq_ofNat_of_zero_le whole.1
    have text : layout.wholeEnd = '.' :: ['0'] := if_pos points
    have parts := isDigit_append all (isDigit_replicate (n := n))
    have total : ofDigits 10 (ds ++ List.replicate n '0' ++ ['0']) = digits * 10 ^ n * 10 := by
      rw [show ['0'] = List.replicate 1 '0' from rfl, ofDigits_append_zeros parts, ofDigits_append_zeros all, value,
        pow_one]
    rw [text, Int.toNat_natCast]
    refine ⟨_, _, _, readParts?_point (by simp [nonempty]) parts (by simp), ?_, ?_⟩
    · rw [total]
      positivity
    · rw [total, zpow_natCast]
      push_cast
      rw [show (0 : Int) - (['0'].length : Nat) = -1 from rfl, zpow_neg_one]
      field_simp
  split
  · rename_i inside
    obtain ⟨n, places⟩ : ∃ n : Nat, (ds.length : Int) + scale = n := ⟨((ds.length : Int) + scale).toNat, by omega⟩
    rw [places, Int.toNat_natCast]
    refine ⟨_, _, _, readParts?_point ?_ (front n) (back n), ?_, ?_⟩
    · rw [ne_eq, List.take_eq_nil_iff, not_or]
      exact ⟨by omega, nonempty⟩
    · rw [List.take_append_drop, value]
      exact some
    · rw [List.take_append_drop, value, List.length_drop,
        show (0 : Int) - ((ds.length - n : Nat) : Int) = scale by omega]
  split
  · rename_i before
    obtain ⟨n, places⟩ : ∃ n : Nat, (ds.length : Int) + scale = -n := ⟨(-((ds.length : Int) + scale)).toNat, by omega⟩
    rw [places, neg_neg, Int.toNat_natCast]
    have total : ofDigits 10 (['0'] ++ (List.replicate n '0' ++ ds)) = digits := by
      rw [← List.append_assoc, show ['0'] ++ List.replicate n '0' = List.replicate (n + 1) '0' from rfl,
        ofDigits_zeros_append all, value]
    have parts := readParts?_point (List.cons_ne_nil '0' []) (by simp)
      (isDigit_append (isDigit_replicate (n := n)) all)
    refine ⟨_, _, _, parts, ?_, ?_⟩
    · rw [total]
      exact some
    · rw [total, List.length_append, List.length_replicate,
        show (0 : Int) - ((n + ds.length : Nat) : Int) = scale by omega]
  · refine ⟨_, _, _, readParts?_exponent (by simp [nonempty]) (front 1) (back 1) _, ?_, ?_⟩
    · rw [List.take_append_drop, value]
      exact some
    · rw [List.take_append_drop, value, List.length_drop]
      congr 2
      omega

end Binary64

end LayeredConfig
