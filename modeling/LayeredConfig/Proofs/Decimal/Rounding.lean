import Mathlib.Algebra.Order.Field.Power
import Mathlib.Data.Nat.Log
import Mathlib.Data.Rat.Floor
import Mathlib.Tactic.FieldSimp
import Mathlib.Tactic.Linarith
import Mathlib.Tactic.Positivity
import Mathlib.Tactic.Ring
import LayeredConfig.Decimal.Binary64

/-!
# Rounding to doubles

What is rounded is said of rational numbers. A double has a mantissa of 53 bits, or one below it at the least
exponent (`IsDouble`), and whatever fraction is rounded gives such a one (`proper_ofFraction`). The other way
round, a number that lies in the rounding interval of a double is rounded to it (`ofFraction_eq`): at the
exponent of the double, or below a power of two at the one before, from where the mantissa is carried over.
-/

namespace LayeredConfig.Binary64

/-- A mantissa and an exponent of a finite double. -/
structure IsDouble (mantissa : Nat) (exponent : Int) : Prop where
  least : minExponent ≤ exponent
  greatest : exponent ≤ maxExponent
  below : mantissa < 2 ^ 53
  full : 2 ^ 52 ≤ mantissa ∨ exponent = minExponent

/-- A number that a double can be. -/
def Proper : Binary64 → Prop
  | .finite _ mantissa exponent => IsDouble mantissa exponent
  | _ => True

theorem isDouble_zero : IsDouble 0 minExponent := ⟨le_rfl, by decide, by decide, .inr rfl⟩

/-! ## Whole numbers -/

/-- A whole number nearest to another number, the even one of two. -/
structure Nearest (q : ℚ) (n : Nat) : Prop where
  low : n - 1 / 2 ≤ q
  high : q ≤ n + 1 / 2
  tie : q = n - 1 / 2 ∨ q = n + 1 / 2 → n % 2 = 0

theorem Nearest.unique {q : ℚ} {n n' : Nat} (h : Nearest q n) (h' : Nearest q n') : n = n' := by
  -- Of two numbers so near, one follows the other, and between them is a tie that only one wins.
  have step {n n' : Nat} (h : Nearest q n) (h' : Nearest q n') : n' ≤ n := by
    by_contra less
    have next : n + 1 ≤ n' := by omega
    have apart : (n : ℚ) + 1 ≤ n' := by exact_mod_cast next
    have same : (n' : ℚ) = n + 1 := le_antisymm (by linarith [h'.low, h.high]) apart
    have even := h.tie (.inr (le_antisymm h.high (by linarith [h'.low])))
    have even' := h'.tie (.inl (le_antisymm (by linarith [h.high]) h'.low))
    have succ : n' = n + 1 := by exact_mod_cast same
    omega
  exact le_antisymm (step h' h) (step h h')

theorem nearest_roundDiv {num den : Nat} (pos : 0 < den) : Nearest (num / den) (roundDiv num den) := by
  have hden : (0 : ℚ) < den := by exact_mod_cast pos
  have split : (num : ℚ) / den = (num / den : Nat) + (num % den : Nat) / den := by
    rw [div_eq_iff hden.ne', add_mul, div_mul_cancel₀ _ hden.ne']
    exact_mod_cast (Nat.div_add_mod' num den).symm
  have less : num % den < den := Nat.mod_lt num pos
  rw [split]
  unfold roundDiv
  dsimp only
  generalize num / den = quotient
  generalize num % den = rest at less
  have low : (0 : ℚ) ≤ rest / den := by positivity
  have high : (rest : ℚ) / den < 1 := (div_lt_one hden).2 (by exact_mod_cast less)
  split
  · rename_i half
    have half : (rest : ℚ) / den < 1 / 2 := by
      rw [div_lt_iff₀ hden]
      have : (2 * rest : ℚ) < den := by exact_mod_cast half
      linarith
    refine ⟨by linarith, by linarith, fun tie => ?_⟩
    exact absurd tie (not_or.2 ⟨by linarith, by linarith⟩)
  · split
    · rename_i half
      have half : (1 : ℚ) / 2 < rest / den := by
        rw [lt_div_iff₀ hden]
        have : (den : ℚ) < 2 * rest := by exact_mod_cast half
        linarith
      refine ⟨by push_cast; linarith, by push_cast; linarith, fun tie => ?_⟩
      push_cast at tie
      exact absurd tie (not_or.2 ⟨by linarith, by linarith⟩)
    · have half : (rest : ℚ) / den = 1 / 2 := by
        rw [div_eq_iff hden.ne']
        have : (2 * rest : ℚ) = den := by exact_mod_cast (by omega : 2 * rest = den)
        linarith
      rw [half]
      rcases Nat.mod_two_eq_zero_or_one quotient with even | odd
      · rw [even]
        exact ⟨by push_cast; linarith, by push_cast; linarith, fun _ => even⟩
      · rw [odd]
        exact ⟨by push_cast; linarith, by push_cast; linarith, fun _ => by omega⟩

/-- Rounding in steps of a power of two. -/
theorem nearest_roundAt (num : Nat) {den : Nat} (pos : 0 < den) (exponent : Int) :
    Nearest (num / den / 2 ^ exponent) (roundAt num den exponent) := by
  unfold roundAt
  split
  · rename_i positive
    have same : (num : ℚ) / den / 2 ^ exponent = num / ((den * Nat.pow 2 exponent.toNat : Nat) : ℚ) := by
      obtain ⟨n, rfl⟩ := Int.eq_ofNat_of_zero_le positive
      rw [Int.toNat_natCast, zpow_natCast, div_div, Nat.pow_eq]
      push_cast
      rfl
    rw [same]
    exact nearest_roundDiv (Nat.mul_pos pos (Nat.pow_pos Nat.two_pos))
  · have same : (num : ℚ) / den / 2 ^ exponent = ((num * Nat.pow 2 (-exponent).toNat : Nat) : ℚ) / den := by
      obtain ⟨n, negative⟩ : ∃ n : Nat, exponent = -n := ⟨(-exponent).toNat, by omega⟩
      rw [negative, neg_neg, Int.toNat_natCast, zpow_neg, zpow_natCast, Nat.pow_eq]
      push_cast
      field_simp
    rw [same]
    exact nearest_roundDiv pos

/-! ## Exponents -/

/-- An exponent at which the mantissa of a number is full, or the least one. -/
structure Leads (q : ℚ) (exponent : Int) : Prop where
  least : minExponent ≤ exponent
  below : q < 2 ^ (exponent + 53)
  full : 2 ^ (exponent + 52) ≤ q ∨ exponent = minExponent

theorem zpow_lt_zpow_iff {a b : Int} : (2 : ℚ) ^ a < 2 ^ b ↔ a < b := zpow_lt_zpow_iff_right₀ one_lt_two

theorem Leads.unique {q : ℚ} {e e' : Int} (h : Leads q e) (h' : Leads q e') : e = e' := by
  have step {e e' : Int} (h : Leads q e) (h' : Leads q e') : e ≤ e' := by
    rcases h.full with full | same
    · have := zpow_lt_zpow_iff.1 (full.trans_lt h'.below)
      omega
    · exact same ▸ h'.least
  exact le_antisymm (step h h') (step h' h)

/-- The binary digits of a number bound it. -/
theorem log2_bounds {n : Nat} (pos : 0 < n) : (2 : ℚ) ^ (n.log2 : Int) ≤ n ∧ (n : ℚ) < 2 ^ ((n.log2 : Int) + 1) := by
  have low : 2 ^ n.log2 ≤ n := Nat.log2_self_le (Nat.ne_of_gt pos)
  have high : n < 2 ^ (n.log2 + 1) := Nat.lt_log2_self
  refine ⟨?_, ?_⟩
  · rw [zpow_natCast]
    exact_mod_cast low
  · rw [← Nat.cast_succ, zpow_natCast]
    exact_mod_cast high

theorem leads_exponentOf {num den : Nat} (positive : 0 < num) (pos : 0 < den) :
    Leads (num / den) (exponentOf num den) := by
  have hden : (0 : ℚ) < den := by exact_mod_cast pos
  obtain ⟨lowNum, highNum⟩ := log2_bounds positive
  obtain ⟨lowDen, highDen⟩ := log2_bounds pos
  unfold exponentOf
  dsimp only
  generalize guess_eq : (num.log2 : Int) - den.log2 - 52 = guess
  have high : (num : ℚ) / den < 2 ^ (guess + 53) := by
    rw [div_lt_iff₀ hden]
    calc (num : ℚ) < 2 ^ ((num.log2 : Int) + 1) := highNum
      _ = 2 ^ (guess + 53) * 2 ^ (den.log2 : Int) := by
        rw [← zpow_add₀ two_ne_zero]
        congr 1
        omega
      _ ≤ 2 ^ (guess + 53) * den := by gcongr
  have low : 2 ^ (guess + 51) ≤ (num : ℚ) / den := by
    rw [le_div_iff₀ hden]
    calc (2 : ℚ) ^ (guess + 51) * den ≤ 2 ^ (guess + 51) * 2 ^ ((den.log2 : Int) + 1) := by gcongr
      _ = 2 ^ (num.log2 : Int) := by
        rw [← zpow_add₀ two_ne_zero]
        congr 1
        omega
      _ ≤ num := lowNum
  -- The check is whether the guess has a full mantissa.
  have full : (if 0 ≤ guess then decide (den * Nat.pow 2 (guess.toNat + 52) ≤ num)
      else decide (den * Nat.pow 2 52 ≤ num * Nat.pow 2 (-guess).toNat)) =
      decide ((2 : ℚ) ^ (guess + 52) ≤ num / den) := by
    split
    · rename_i positive
      obtain ⟨n, rfl⟩ := Int.eq_ofNat_of_zero_le positive
      refine decide_eq_decide.2 ?_
      rw [le_div_iff₀ hden, Int.toNat_natCast, Nat.mul_comm, Nat.pow_eq]
      exact_mod_cast Iff.rfl
    · obtain ⟨n, negative⟩ : ∃ n : Nat, guess = -n := ⟨(-guess).toNat, by omega⟩
      refine decide_eq_decide.2 ?_
      rw [negative, neg_neg, Int.toNat_natCast, le_div_iff₀ hden, zpow_add₀ two_ne_zero, zpow_neg, zpow_natCast,
        inv_mul_eq_div, div_mul_eq_mul_div, div_le_iff₀ (by positivity), Nat.mul_comm den, Nat.pow_eq, Nat.pow_eq]
      exact_mod_cast Iff.rfl
  rw [full]
  have leads (exponent : Int) (below : (num : ℚ) / den < 2 ^ (exponent + 53))
      (above : 2 ^ (exponent + 52) ≤ (num : ℚ) / den) : Leads (num / den) (max minExponent exponent) := by
    refine ⟨le_max_left _ _, below.trans_le ?_, ?_⟩
    · exact zpow_le_zpow_right₀ one_le_two (by omega)
    · rcases max_choice minExponent exponent with same | same <;> rw [same]
      · exact .inr rfl
      · exact .inl above
  by_cases mantissa : (2 : ℚ) ^ (guess + 52) ≤ num / den
  · rw [decide_eq_true mantissa]
    exact leads guess high mantissa
  · rw [decide_eq_false mantissa]
    refine leads (guess - 1) ?_ ?_
    · rw [show guess - 1 + 53 = guess + 52 by omega]
      exact not_le.1 mantissa
    · rw [show guess - 1 + 52 = guess + 51 by omega]
      exact low

/-! ## Fractions -/

/-- A mantissa is full at its exponent, or one more, where it is carried over. -/
theorem bounds_of_nearest {q : ℚ} {n : Nat} {exponent : Int} (leads : Leads q exponent)
    (nearest : Nearest (q / 2 ^ exponent) n) : n ≤ 2 ^ 53 ∧ (2 ^ 52 ≤ n ∨ exponent = minExponent) := by
  have unit : (0 : ℚ) < 2 ^ exponent := by positivity
  constructor
  · have below : q / 2 ^ exponent < 2 ^ 53 := by
      rw [div_lt_iff₀ unit, ← zpow_natCast, ← zpow_add₀ two_ne_zero, add_comm]
      exact leads.below
    by_contra more
    have more : (2 : ℚ) ^ 53 + 1 ≤ n := by exact_mod_cast Nat.lt_of_not_le more
    linarith [nearest.low]
  · refine leads.full.imp_left fun full => ?_
    have full : (2 : ℚ) ^ 52 ≤ q / 2 ^ exponent := by
      rw [le_div_iff₀ unit, ← zpow_natCast, ← zpow_add₀ two_ne_zero, add_comm]
      exact full
    by_contra less
    have less : (n : ℚ) + 1 ≤ 2 ^ 52 := by exact_mod_cast Nat.lt_of_not_le less
    linarith [nearest.high]

/-- The double of a rounded mantissa, which is carried over when it has one bit too many. -/
def placed (negative : Bool) (mantissa : Nat) (exponent : Int) : Binary64 :=
  if mantissa = 2 ^ 53 then
    if maxExponent < exponent + 1 then .infinity negative else .finite negative (2 ^ 52) (exponent + 1)
  else if maxExponent < exponent then .infinity negative else .finite negative mantissa exponent

theorem ofFraction_eq_placed (negative : Bool) {num den : Nat} (positive : 0 < num) :
    ofFraction negative num den = placed negative (roundAt num den (exponentOf num den)) (exponentOf num den) := by
  rw [ofFraction, if_neg (Nat.ne_of_gt positive), placed]
  by_cases carried : roundAt num den (exponentOf num den) = 2 ^ 53
  · simp only [if_pos carried, show Nat.pow 2 precision = 2 ^ 53 from rfl,
      show Nat.pow 2 (precision - 1) = 2 ^ 52 from rfl]
  · simp only [if_neg carried, show Nat.pow 2 precision = 2 ^ 53 from rfl]

/-- **Fractions are rounded to doubles.** -/
theorem proper_ofFraction (negative : Bool) {num den : Nat} (pos : 0 < den) : (ofFraction negative num den).Proper := by
  rcases Nat.eq_zero_or_pos num with rfl | positive
  · exact isDouble_zero
  · have leads := leads_exponentOf positive pos
    obtain ⟨most, full⟩ := bounds_of_nearest leads (nearest_roundAt num pos _)
    have least := leads.least
    rw [ofFraction_eq_placed negative positive, placed]
    split
    · split
      · trivial
      · exact ⟨by omega, by omega, by decide, .inl (by decide)⟩
    · split
      · trivial
      · exact ⟨least, by omega, by omega, full⟩

theorem proper_roundDecimal (negative : Bool) (digits : Nat) (scale : Int) :
    (roundDecimal negative digits scale).Proper := by
  unfold roundDecimal
  split
  · exact isDouble_zero
  · dsimp only
    split
    · exact isDouble_zero
    · split
      · trivial
      · split
        · exact proper_ofFraction negative Nat.one_pos
        · exact proper_ofFraction negative (Nat.pow_pos (by decide))

/-! ## Rounding intervals -/

/-- What of its unit a double is apart from the end of its interval below it: half, or a quarter where the doubles
below it have half its unit. -/
def lowerGap (mantissa : Nat) (exponent : Int) : ℚ :=
  if mantissa = 2 ^ 52 ∧ minExponent < exponent then 1 / 4 else 1 / 2

/-- The numbers that are rounded to a positive double. -/
structure RoundsTo (q : ℚ) (mantissa : Nat) (exponent : Int) : Prop where
  low : mantissa - lowerGap mantissa exponent ≤ q / 2 ^ exponent
  high : q / 2 ^ exponent ≤ mantissa + 1 / 2
  /-- The ends belong to the interval if the mantissa is even. -/
  inner : mantissa % 2 = 1 →
    mantissa - lowerGap mantissa exponent < q / 2 ^ exponent ∧ q / 2 ^ exponent < mantissa + 1 / 2

theorem lowerGap_le (mantissa : Nat) (exponent : Int) : lowerGap mantissa exponent ≤ 1 / 2 := by
  unfold lowerGap
  split <;> norm_num

variable {q : ℚ} {mantissa : Nat} {exponent : Int}

theorem RoundsTo.nearest (h : RoundsTo q mantissa exponent) : Nearest (q / 2 ^ exponent) mantissa := by
  have gap := lowerGap_le mantissa exponent
  refine ⟨by linarith [h.low], h.high, fun tie => ?_⟩
  rcases Nat.mod_two_eq_zero_or_one mantissa with even | odd
  · exact even
  · obtain ⟨low, high⟩ := h.inner odd
    rcases tie with tie | tie <;> linarith

/-- A number in the interval of a double has its exponent, unless it lies below a power of two. -/
theorem RoundsTo.leads (h : RoundsTo q mantissa exponent) (double : IsDouble mantissa exponent)
    (full : 2 ^ (exponent + 52) ≤ q ∨ exponent = minExponent) : Leads q exponent := by
  refine ⟨double.least, ?_, full⟩
  have unit : (0 : ℚ) < 2 ^ exponent := by positivity
  have most : (mantissa : ℚ) + 1 ≤ 2 ^ 53 := by exact_mod_cast double.below
  rw [add_comm, zpow_add₀ two_ne_zero, ← div_lt_iff₀ unit, show (2 : ℚ) ^ (53 : Int) = 2 ^ 53 from rfl]
  linarith [h.high]

/-- Below a power of two the exponent is the one before, and the mantissa is carried over. -/
theorem RoundsTo.carried (h : RoundsTo q mantissa exponent) (double : IsDouble mantissa exponent)
    (other : exponent ≠ minExponent) (below : q < 2 ^ (exponent + 52)) :
    mantissa = 2 ^ 52 ∧ Leads q (exponent - 1) ∧ Nearest (q / 2 ^ (exponent - 1)) (2 ^ 53) := by
  have unit : (0 : ℚ) < 2 ^ exponent := by positivity
  have below' : q / 2 ^ exponent < 2 ^ 52 := by
    rw [div_lt_iff₀ unit, ← zpow_natCast, ← zpow_add₀ two_ne_zero, add_comm]
    exact below
  have full : (2 : ℚ) ^ 52 ≤ mantissa := by exact_mod_cast double.full.resolve_right other
  have power : mantissa = 2 ^ 52 := by
    refine le_antisymm ?_ (double.full.resolve_right other)
    by_contra more
    have more : (2 : ℚ) ^ 52 + 1 ≤ mantissa := by exact_mod_cast Nat.lt_of_not_le more
    linarith [h.low, lowerGap_le mantissa exponent]
  have least := double.least
  have low := h.low
  rw [lowerGap, if_pos ⟨power, by omega⟩, power] at low
  push_cast at low
  have halved : q / 2 ^ (exponent - 1) = 2 * (q / 2 ^ exponent) := by
    rw [zpow_sub_one₀ two_ne_zero]
    field_simp
  refine ⟨power, ⟨by omega, ?_, .inl ?_⟩, ?_, ?_, fun _ => rfl⟩
  · rwa [show exponent - 1 + 53 = exponent + 52 by omega]
  · rw [add_comm, zpow_add₀ two_ne_zero, ← le_div_iff₀ (by positivity), halved,
      show (2 : ℚ) ^ (52 : Int) = 2 ^ 52 from rfl]
    linarith
  · rw [halved]
    push_cast
    linarith
  · rw [halved]
    push_cast
    linarith

/-- **A number in the interval of a double is rounded to it.** -/
theorem ofFraction_eq (negative : Bool) {num den : Nat} (positive : 0 < num) (pos : 0 < den)
    (double : IsDouble mantissa exponent) (h : RoundsTo (num / den) mantissa exponent) :
    ofFraction negative num den = .finite negative mantissa exponent := by
  have leads := leads_exponentOf positive pos
  have nearest := nearest_roundAt num pos (exponentOf num den)
  have greatest := double.greatest
  rw [ofFraction_eq_placed negative positive]
  by_cases full : 2 ^ (exponent + 52) ≤ (num : ℚ) / den ∨ exponent = minExponent
  · have same := leads.unique (h.leads double full)
    rw [same] at nearest ⊢
    rw [nearest.unique h.nearest, placed, if_neg (Nat.ne_of_lt double.below), if_neg (by omega)]
  · rw [not_or, not_le] at full
    obtain ⟨power, leads', nearest'⟩ := h.carried double full.2 full.1
    have same := leads.unique leads'
    rw [same] at nearest ⊢
    rw [nearest.unique nearest', placed, if_pos rfl, if_neg (by omega), power, Int.sub_add_cancel]

/-! ## Decimals -/

/-- The binary digits of a number bound its decimal ones: eight is below ten, and ten below sixteen. -/
theorem pow_log2_bounds {n : Nat} (pos : 0 < n) : 10 ^ (n.log2 / 4) ≤ n ∧ n < 10 ^ (n.log2 / 3 + 1) := by
  constructor
  · calc 10 ^ (n.log2 / 4) ≤ 16 ^ (n.log2 / 4) := Nat.pow_le_pow_left (by decide) _
      _ = 2 ^ (4 * (n.log2 / 4)) := (Nat.pow_mul 2 4 _).symm
      _ ≤ 2 ^ n.log2 := Nat.pow_le_pow_right Nat.two_pos (Nat.mul_div_le _ _)
      _ ≤ n := Nat.log2_self_le (Nat.ne_of_gt pos)
  · calc n < 2 ^ (n.log2 + 1) := Nat.lt_log2_self
      _ ≤ 2 ^ (3 * (n.log2 / 3 + 1)) := Nat.pow_le_pow_right Nat.two_pos (by omega)
      _ = 8 ^ (n.log2 / 3 + 1) := Nat.pow_mul 2 3 _
      _ ≤ 10 ^ (n.log2 / 3 + 1) := Nat.pow_le_pow_left (by decide) _

theorem two_pow_le (n : Nat) : (2 : ℚ) ^ (3 * n) ≤ 10 ^ n := by
  rw [pow_mul]
  exact pow_le_pow_left₀ (by norm_num) (by norm_num) n

theorem ten_zpow_neg_le (n : Nat) : (10 : ℚ) ^ (-n : Int) ≤ 2 ^ (-(3 * n : Nat) : Int) := by
  rw [zpow_neg, zpow_neg, zpow_natCast, zpow_natCast]
  exact inv_anti₀ (by positivity) (two_pow_le n)

/-- What is rounded to a positive double is not so small and not so great that it is settled without the power. -/
theorem RoundsTo.moderate (h : RoundsTo q mantissa exponent) (double : IsDouble mantissa exponent)
    (positive : 0 < mantissa) : (10 : ℚ) ^ (-401 : Int) ≤ q ∧ q ≤ 10 ^ (400 : Int) := by
  have unit : (0 : ℚ) < 2 ^ exponent := by positivity
  have one : (1 : ℚ) ≤ mantissa := by exact_mod_cast positive
  have most : (mantissa : ℚ) + 1 ≤ 2 ^ 53 := by exact_mod_cast double.below
  constructor
  · have low : 1 / 2 ≤ q / 2 ^ exponent := by linarith [h.low, lowerGap_le mantissa exponent]
    calc (10 : ℚ) ^ (-401 : Int) ≤ 2 ^ (-1203 : Int) := ten_zpow_neg_le 401
      _ ≤ 2 ^ (-1 + minExponent) := zpow_le_zpow_right₀ one_le_two (by decide)
      _ = 1 / 2 * 2 ^ minExponent := by rw [zpow_add₀ two_ne_zero, zpow_neg_one, one_div]
      _ ≤ 1 / 2 * 2 ^ exponent := by gcongr; exacts [one_le_two, double.least]
      _ ≤ q := (le_div_iff₀ unit).1 low
  · have high : q / 2 ^ exponent ≤ 2 ^ 53 := by linarith [h.high]
    calc q ≤ 2 ^ 53 * 2 ^ exponent := (div_le_iff₀ unit).1 high
      _ ≤ 2 ^ 53 * 2 ^ maxExponent := by gcongr; exacts [one_le_two, double.greatest]
      _ = 2 ^ (53 + maxExponent) := by rw [zpow_add₀ two_ne_zero]; rfl
      _ ≤ 2 ^ (1200 : Int) := zpow_le_zpow_right₀ one_le_two (by decide)
      _ ≤ 10 ^ (400 : Int) := two_pow_le 400

/-- **A decimal in the interval of a double is read as it.** -/
theorem roundDecimal_eq (negative : Bool) {digits : Nat} {scale : Int} (some : 0 < digits)
    (double : IsDouble mantissa exponent) (positive : 0 < mantissa)
    (h : RoundsTo (digits * 10 ^ scale) mantissa exponent) :
    roundDecimal negative digits scale = .finite negative mantissa exponent := by
  obtain ⟨low, high⟩ := h.moderate double positive
  obtain ⟨least, most⟩ := pow_log2_bounds some
  have ten : (1 : ℚ) < 10 := by norm_num
  have unit : (0 : ℚ) < 10 ^ scale := by positivity
  have small : ¬(digits.log2 / 3 + 1 + scale : Int) < -400 := by
    have below : (digits : ℚ) * 10 ^ scale < 10 ^ (digits.log2 / 3 + 1 + scale : Int) := by
      rw [zpow_add₀ (by norm_num)]
      gcongr
      exact_mod_cast most
    have := (zpow_lt_zpow_iff_right₀ ten).1 (low.trans_lt below)
    omega
  have great : ¬400 < (digits.log2 / 4 : Int) + scale := by
    have above : (10 : ℚ) ^ ((digits.log2 / 4 : Int) + scale) ≤ digits * 10 ^ scale := by
      rw [zpow_add₀ (by norm_num)]
      gcongr
      exact_mod_cast least
    have := (zpow_le_zpow_iff_right₀ ten).1 (above.trans high)
    omega
  rw [roundDecimal, if_neg (Nat.ne_of_gt some)]
  dsimp only
  rw [if_neg small, if_neg great]
  split
  · rename_i whole
    obtain ⟨n, rfl⟩ := Int.eq_ofNat_of_zero_le whole
    refine ofFraction_eq negative (Nat.mul_pos some (Nat.pow_pos (by decide))) Nat.one_pos double ?_
    rw [zpow_natCast] at h
    rw [Int.toNat_natCast, Nat.pow_eq]
    push_cast
    rwa [div_one]
  · obtain ⟨n, rfl⟩ : ∃ n : Nat, scale = -n := ⟨(-scale).toNat, by omega⟩
    refine ofFraction_eq negative some (Nat.pow_pos (by decide)) double ?_
    rw [zpow_neg, zpow_natCast, ← div_eq_mul_inv] at h
    rw [neg_neg, Int.toNat_natCast, Nat.pow_eq]
    push_cast
    exact h

end LayeredConfig.Binary64
