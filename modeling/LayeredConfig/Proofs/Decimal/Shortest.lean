import Mathlib.Algebra.Order.Floor.Semifield
import Mathlib.Data.Rat.Floor
import LayeredConfig.Decimal.Shortest
import LayeredConfig.Proofs.Decimal.Rounding

/-!
# Shortest digits read back

The interval of a double is compared with decimals in natural numbers, and holds those that are rounded to the
double (`holds_interval_iff`). The search for digits goes through finer and finer grids. Seventeen digits are as
fine as a gap between doubles (`roundsTo_of_near`), so that it does not fail, and what it finds lies in the
interval (`roundsTo_shortest`).
-/

namespace LayeredConfig.Binary64

variable {mantissa : Nat} {exponent : Int}

/-! ## The interval -/

/-- The numbers of an interval over their denominator: quarters of the unit of the double. -/
theorem interval_eq (mantissa : Nat) (exponent : Int) : ∃ unit : Nat,
    (interval mantissa exponent).low =
      (4 * mantissa - if mantissa = 2 ^ 52 ∧ minExponent < exponent then 1 else 2) * unit ∧
    (interval mantissa exponent).value = 4 * mantissa * unit ∧
    (interval mantissa exponent).high = (4 * mantissa + 2) * unit ∧
    0 < (interval mantissa exponent).den ∧
    (unit : ℚ) / (interval mantissa exponent).den = 2 ^ exponent / 4 := by
  refine ⟨_, rfl, rfl, rfl, ?_, ?_⟩
  · dsimp only [interval]
    split
    · exact Nat.one_pos
    · exact Nat.pow_pos Nat.two_pos
  · dsimp only [interval]
    split
    · obtain ⟨n, rfl⟩ : ∃ n : Nat, exponent = n + 2 := ⟨(exponent - 2).toNat, by omega⟩
      rw [add_sub_cancel_right, Int.toNat_natCast, zpow_add₀ two_ne_zero, zpow_natCast, Nat.pow_eq]
      push_cast
      norm_num
    · obtain ⟨n, rfl⟩ : ∃ n : Nat, exponent = 2 - n := ⟨(2 - exponent).toNat, by omega⟩
      rw [sub_sub_cancel, Int.toNat_natCast, zpow_sub₀ two_ne_zero, zpow_natCast, Nat.pow_eq]
      push_cast
      ring

theorem den_pos (mantissa : Nat) (exponent : Int) : (0 : ℚ) < (interval mantissa exponent).den := by
  obtain ⟨-, -, -, -, pos, -⟩ := interval_eq mantissa exponent
  exact_mod_cast pos

theorem value_div_den (mantissa : Nat) (exponent : Int) :
    ((interval mantissa exponent).value : ℚ) / (interval mantissa exponent).den = mantissa * 2 ^ exponent := by
  obtain ⟨unit, -, value, -, -, same⟩ := interval_eq mantissa exponent
  rw [value]
  push_cast
  rw [mul_div_assoc, same]
  ring

/-- A number lies in an interval between its ends, or at one if they belong to it. -/
theorem roundsTo_iff {q : ℚ} : RoundsTo q mantissa exponent ↔
    if mantissa % 2 = 0 then
      mantissa - lowerGap mantissa exponent ≤ q / 2 ^ exponent ∧ q / 2 ^ exponent ≤ mantissa + 1 / 2
    else mantissa - lowerGap mantissa exponent < q / 2 ^ exponent ∧ q / 2 ^ exponent < mantissa + 1 / 2 := by
  split
  · rename_i even
    exact ⟨fun h => ⟨h.low, h.high⟩, fun h => ⟨h.1, h.2, fun odd => by omega⟩⟩
  · exact ⟨fun h => h.inner (by omega), fun h => ⟨h.1.le, h.2.le, fun _ => h⟩⟩

/-- **The interval** holds what is rounded to the double. -/
theorem holds_interval_iff (some : 0 < mantissa) {times : Nat} (pos : 0 < times) (point : Nat) :
    (interval mantissa exponent).holds times point ↔
      RoundsTo (point / (times * (interval mantissa exponent).den)) mantissa exponent := by
  obtain ⟨unit, low, -, high, -, same⟩ := interval_eq mantissa exponent
  have closed : (interval mantissa exponent).closed = decide (mantissa % 2 = 0) := rfl
  have hden := den_pos mantissa exponent
  have htimes : (0 : ℚ) < times := by exact_mod_cast pos
  have unit_pos : (0 : ℚ) < 2 ^ exponent := by positivity
  -- Numerators are compared as the numbers that they stand for.
  have scaled (n : Nat) : ((n * unit * times : Nat) : ℚ) =
      n / 4 * 2 ^ exponent * (times * (interval mantissa exponent).den) := by
    rw [div_eq_iff hden.ne'] at same
    push_cast
    rw [same]
    ring
  have below (n : Nat) : n * unit * times ≤ point ↔
      (n : ℚ) / 4 ≤ point / (times * (interval mantissa exponent).den) / 2 ^ exponent := by
    rw [le_div_iff₀ unit_pos, le_div_iff₀ (mul_pos htimes hden), ← scaled]
    exact Nat.cast_le.symm
  have above (n : Nat) : point ≤ n * unit * times ↔
      point / (times * (interval mantissa exponent).den) / 2 ^ exponent ≤ (n : ℚ) / 4 := by
    rw [div_le_iff₀ unit_pos, div_le_iff₀ (mul_pos htimes hden), ← scaled]
    exact Nat.cast_le.symm
  have lower : ((4 * mantissa - if mantissa = 2 ^ 52 ∧ minExponent < exponent then 1 else 2 : Nat) : ℚ) / 4 =
      mantissa - lowerGap mantissa exponent := by
    rw [lowerGap]
    split <;> rw [Nat.cast_sub (by omega)] <;> push_cast <;> ring
  have upper : ((4 * mantissa + 2 : Nat) : ℚ) / 4 = mantissa + 1 / 2 := by
    push_cast
    ring
  rw [roundsTo_iff, Interval.holds, closed, low, high, ← lower, ← upper]
  by_cases even : mantissa % 2 = 0
  · simp only [even, decide_true, if_true, Bool.and_eq_true, decide_eq_true_eq, below, above]
  · simp only [even, decide_false, Bool.false_eq_true, if_false, Bool.and_eq_true, decide_eq_true_eq, ← not_le, below,
      above]

/-- What differs from a double by half a unit of its seventeenth digit is rounded to it. -/
theorem roundsTo_of_near {q : ℚ} (double : IsDouble mantissa exponent)
    (low : mantissa * 2 ^ exponent * (1 - 1 / (2 * 10 ^ 16)) ≤ q)
    (high : q ≤ mantissa * 2 ^ exponent * (1 + 1 / (2 * 10 ^ 16))) : RoundsTo q mantissa exponent := by
  have unit : (0 : ℚ) < 2 ^ exponent := by positivity
  have most : (mantissa : ℚ) + 1 ≤ 2 ^ 53 := by exact_mod_cast double.below
  have low : mantissa * (1 - 1 / (2 * 10 ^ 16)) ≤ q / 2 ^ exponent := by
    rw [le_div_iff₀ unit]
    linarith
  have high : q / 2 ^ exponent ≤ mantissa * (1 + 1 / (2 * 10 ^ 16)) := by
    rw [div_le_iff₀ unit]
    linarith
  have inner : mantissa - lowerGap mantissa exponent < q / 2 ^ exponent ∧ q / 2 ^ exponent < mantissa + 1 / 2 := by
    refine ⟨lt_of_lt_of_le ?_ low, lt_of_le_of_lt high ?_⟩
    · unfold lowerGap
      split
      · rename_i power
        rw [power.1]
        norm_num
      · linarith
    · linarith
  exact ⟨inner.1.le, inner.2.le, fun _ => inner⟩

/-! ## Grids -/

/-- What makes the points of a grid natural numbers. -/
def gridTimes (scale : Int) : Nat := if 0 ≤ scale then 1 else Nat.pow 10 (-scale).toNat

/-- The step of a grid, made a natural number. -/
def gridStep (scale : Int) : Nat := if 0 ≤ scale then Nat.pow 10 scale.toNat else 1

theorem gridTimes_pos (scale : Int) : 0 < gridTimes scale := by
  unfold gridTimes
  split
  · exact Nat.one_pos
  · exact Nat.pow_pos (by decide)

theorem gridStep_pos (scale : Int) : 0 < gridStep scale := by
  unfold gridStep
  split
  · exact Nat.pow_pos (by decide)
  · exact Nat.one_pos

theorem gridStep_div_gridTimes (scale : Int) : (gridStep scale : ℚ) / gridTimes scale = 10 ^ scale := by
  unfold gridStep gridTimes
  split
  · rename_i whole
    obtain ⟨n, rfl⟩ := Int.eq_ofNat_of_zero_le whole
    rw [Int.toNat_natCast, zpow_natCast, Nat.pow_eq]
    push_cast
    exact div_one _
  · obtain ⟨n, rfl⟩ : ∃ n : Nat, scale = -n := ⟨(-scale).toNat, by omega⟩
    rw [neg_neg, Int.toNat_natCast, zpow_neg, zpow_natCast, Nat.pow_eq]
    push_cast
    exact one_div _

/-- The number of whole steps in the value. -/
def Interval.floor (i : Interval) (scale : Int) : Nat := i.value * gridTimes scale / (i.den * gridStep scale)

/-- Whether a point of a grid lies in the interval. -/
def Interval.holdsPoint (i : Interval) (scale : Int) (n : Nat) : Bool :=
  i.holds (gridTimes scale) (n * (i.den * gridStep scale))

/-- Of a grid the two points around the value are tried. Zero is none. -/
theorem Interval.nearest?_eq (i : Interval) (scale : Int) : i.nearest? scale =
    let lower := i.holdsPoint scale (i.floor scale) && 0 < i.floor scale
    let upper := i.holdsPoint scale (i.floor scale + 1)
    let twice := 2 * (i.value * gridTimes scale % (i.den * gridStep scale))
    let step := i.den * gridStep scale
    if lower && upper then
      some (if twice < step ∨ (twice = step ∧ i.floor scale % 2 = 0) then i.floor scale else i.floor scale + 1)
    else if lower then some (i.floor scale)
    else if upper then some (i.floor scale + 1)
    else none := rfl

/-- What is picked of a grid lies in the interval. -/
theorem Interval.of_mem_nearest? {i : Interval} {scale : Int} {digits : Nat} (h : digits ∈ i.nearest? scale) :
    0 < digits ∧ i.holdsPoint scale digits := by
  rw [nearest?_eq] at h
  dsimp only at h
  generalize i.floor scale = floor at h
  split at h
  · rename_i both
    simp only [Bool.and_eq_true, decide_eq_true_eq] at both
    obtain rfl := Option.some.inj h
    split
    · exact ⟨both.1.2, both.1.1⟩
    · exact ⟨Nat.succ_pos _, both.2⟩
  · split at h
    · rename_i lower
      simp only [Bool.and_eq_true, decide_eq_true_eq] at lower
      obtain rfl := Option.some.inj h
      exact ⟨lower.2, lower.1⟩
    · split at h
      · rename_i upper
        obtain rfl := Option.some.inj h
        exact ⟨Nat.succ_pos _, upper⟩
      · cases h

/-- Something is picked where one of the two points lies in the interval. -/
theorem Interval.isSome_nearest? {i : Interval} {scale : Int} (positive : 0 < i.floor scale)
    (h : i.holdsPoint scale (i.floor scale) ∨ i.holdsPoint scale (i.floor scale + 1)) : (i.nearest? scale).isSome := by
  rw [nearest?_eq]
  dsimp only
  rcases h with h | h <;> simp only [h, positive, decide_true, Bool.and_true, if_true] <;> split <;> rfl

theorem holdsPoint_iff (some : 0 < mantissa) (scale : Int) (n : Nat) :
    (interval mantissa exponent).holdsPoint scale n ↔ RoundsTo (n * 10 ^ scale) mantissa exponent := by
  have hden := den_pos mantissa exponent
  have htimes : (0 : ℚ) < gridTimes scale := by exact_mod_cast gridTimes_pos scale
  rw [Interval.holdsPoint, holds_interval_iff some (gridTimes_pos scale), ← gridStep_div_gridTimes]
  push_cast
  rw [show (n : ℚ) * ((interval mantissa exponent).den * gridStep scale) /
    (gridTimes scale * (interval mantissa exponent).den) = n * (gridStep scale / gridTimes scale) by field_simp]

/-- The value lies between two points of each grid. -/
theorem floor_bounds (mantissa : Nat) (exponent scale : Int) :
    ((interval mantissa exponent).floor scale * 10 ^ scale : ℚ) ≤ mantissa * 2 ^ exponent ∧
      (mantissa * 2 ^ exponent : ℚ) < ((interval mantissa exponent).floor scale + 1) * 10 ^ scale := by
  have hden := den_pos mantissa exponent
  have htimes : (0 : ℚ) < gridTimes scale := by exact_mod_cast gridTimes_pos scale
  have hstep : (0 : ℚ) < gridStep scale := by exact_mod_cast gridStep_pos scale
  have unit : (0 : ℚ) < 10 ^ scale := by positivity
  have same : ((interval mantissa exponent).value * gridTimes scale : Nat) /
      ((interval mantissa exponent).den * gridStep scale : Nat) = (mantissa * 2 ^ exponent / 10 ^ scale : ℚ) := by
    rw [← value_div_den, ← gridStep_div_gridTimes]
    push_cast
    field_simp
  have floor : (interval mantissa exponent).floor scale = ⌊(mantissa * 2 ^ exponent / 10 ^ scale : ℚ)⌋₊ := by
    rw [← same, Nat.floor_div_eq_div]
    rfl
  rw [floor, ← le_div_iff₀ unit, ← div_lt_iff₀ unit]
  exact ⟨Nat.floor_le (by positivity), Nat.lt_floor_add_one _⟩

/-- **Seventeen digits.** Where the step of a grid is no more than a unit of the seventeenth digit, one of its points
around the value lies in the interval. -/
theorem isSome_nearest?_of_fine (double : IsDouble mantissa exponent) (some : 0 < mantissa) (scale : Int)
    (fine : (10 : ℚ) ^ scale * 10 ^ 16 ≤ mantissa * 2 ^ exponent) :
    ((interval mantissa exponent).nearest? scale).isSome := by
  have unit : (0 : ℚ) < 10 ^ scale := by positivity
  obtain ⟨low, high⟩ := floor_bounds mantissa exponent scale
  have point (n : Nat) : (interval mantissa exponent).holdsPoint scale n ↔ _ := holdsPoint_iff some scale n
  refine Interval.isSome_nearest? ?_ ?_
  · have : (0 : ℚ) < (interval mantissa exponent).floor scale := by nlinarith
    exact_mod_cast this
  · rw [point, point]
    push_cast
    generalize (interval mantissa exponent).floor scale = floor at low high
    by_cases nearer : (mantissa * 2 ^ exponent : ℚ) ≤ (floor + 1 / 2) * 10 ^ scale
    · exact .inl (roundsTo_of_near double (by linarith) (by linarith))
    · exact .inr (roundsTo_of_near double (by linarith) (by linarith))

/-! ## Digits before and after the point -/

/-- The number of zeros behind the point is told if there are fewer than the search counts. -/
theorem leadingZeros_spec {den : Nat} : ∀ {fuel : Nat} (count : Nat) {num : Nat}, den ≤ num * 10 ^ fuel →
    ∃ more, leadingZeros den fuel count num = count + more ∧ den ≤ num * 10 ^ (more + 1)
  | 0, count, num, enough => ⟨0, rfl, by omega⟩
  | fuel + 1, count, num, enough => by
    rw [leadingZeros]
    split
    · exact ⟨0, rfl, by omega⟩
    · rw [Nat.pow_succ', ← Nat.mul_assoc] at enough
      obtain ⟨more, same, bound⟩ := leadingZeros_spec (count + 1) enough
      exact ⟨more + 1, by omega, by rwa [Nat.pow_succ', ← Nat.mul_assoc]⟩

/-- A number has no fewer digits before the point than are counted. -/
theorem pow_decimalExponent_le {num den : Nat} (pos : 0 < den) (enough : den ≤ num * 10 ^ 330) :
    (10 : ℚ) ^ (decimalExponent num den - 1) ≤ num / den := by
  have hden : (0 : ℚ) < den := by exact_mod_cast pos
  rw [le_div_iff₀ hden]
  unfold decimalExponent
  split
  · rename_i whole
    obtain ⟨n, length⟩ : ∃ n, (Nat.toDigits 10 (num / den)).length = n + 1 :=
      Nat.exists_eq_succ_of_ne_zero (Nat.ne_of_gt Nat.length_toDigits_pos)
    have least : 10 ^ n ≤ num / den := by
      rcases Nat.eq_zero_or_pos n with rfl | positive
      · exact Nat.div_pos whole pos
      · by_contra less
        have := (Nat.length_toDigits_le_iff (by decide) positive).2 (Nat.lt_of_not_le less)
        omega
    rw [length, Nat.cast_succ, add_sub_cancel_right, zpow_natCast]
    exact_mod_cast (Nat.mul_le_mul_right den least).trans (Nat.div_mul_le_self num den)
  · obtain ⟨more, same, bound⟩ := leadingZeros_spec 0 enough
    rw [same, Nat.zero_add, ← neg_add', zpow_neg, ← Nat.cast_succ, zpow_natCast, inv_mul_le_iff₀ (by positivity),
      mul_comm]
    exact_mod_cast bound

/-- The search for zeros counts far enough for every double. -/
theorem den_le_value (double : IsDouble mantissa exponent) (some : 0 < mantissa) :
    (interval mantissa exponent).den ≤ (interval mantissa exponent).value * 10 ^ 330 := by
  have hden := den_pos mantissa exponent
  have one : (1 : ℚ) ≤ mantissa := by exact_mod_cast some
  have least : (2 : ℚ) ^ (-1074 : Int) ≤ mantissa * 2 ^ exponent :=
    calc (2 : ℚ) ^ (-1074 : Int) ≤ 2 ^ exponent := zpow_le_zpow_right₀ one_le_two double.least
      _ ≤ mantissa * 2 ^ exponent := le_mul_of_one_le_left (by positivity) one
  rw [← value_div_den, le_div_iff₀ hden, zpow_neg, inv_mul_le_iff₀ (by positivity)] at least
  have power : (2 : ℚ) ^ (1074 : Int) ≤ 10 ^ 330 :=
    calc (2 : ℚ) ^ (1074 : Int) ≤ 2 ^ (33 * 33 : Int) := zpow_le_zpow_right₀ one_le_two (by decide)
      _ = (2 ^ (33 : Int)) ^ (33 : Int) := zpow_mul 2 33 33
      _ ≤ (10 ^ 10) ^ 33 := pow_le_pow_left₀ (by norm_num) (by norm_num) 33
      _ = 10 ^ 330 := (pow_mul 10 10 33).symm
  have : ((interval mantissa exponent).den : ℚ) ≤ (interval mantissa exponent).value * 10 ^ 330 := by
    refine least.trans ?_
    rw [mul_comm]
    gcongr
  exact_mod_cast this

/-! ## The search -/

theorem stripZeros_spec {digits : Nat} (some : 0 < digits) (fuel : Nat) (scale : Int) :
    0 < (stripZeros fuel digits scale).1 ∧
      ((stripZeros fuel digits scale).1 : ℚ) * 10 ^ (stripZeros fuel digits scale).2 = digits * 10 ^ scale := by
  induction fuel generalizing digits scale with
  | zero => exact ⟨some, rfl⟩
  | succ fuel ih =>
    rw [stripZeros]
    split
    · rename_i zero
      obtain ⟨tens, rfl⟩ := Nat.dvd_of_mod_eq_zero zero.1
      rw [Nat.mul_div_cancel_left _ (by decide)]
      obtain ⟨positive, same⟩ := ih (show 0 < tens by omega) (scale + 1)
      refine ⟨positive, same.trans ?_⟩
      rw [zpow_add_one₀ (by norm_num)]
      push_cast
      ring
    · exact ⟨some, rfl⟩

/-- The search comes to seventeen digits, and there it ends. -/
theorem firstHit_spec (double : IsDouble mantissa exponent) (some : 0 < mantissa) {places : Int}
    (fine : (10 : ℚ) ^ (places - 1) ≤ mantissa * 2 ^ exponent) (fuel count : Nat) (left : count + fuel = 18)
    (least : count ≤ 17) :
    0 < ((interval mantissa exponent).firstHit places fuel count).1 ∧
      RoundsTo (((interval mantissa exponent).firstHit places fuel count).1 *
        10 ^ ((interval mantissa exponent).firstHit places fuel count).2) mantissa exponent := by
  induction fuel generalizing count with
  | zero => omega
  | succ fuel ih =>
    rw [Interval.firstHit]
    cases hit : (interval mantissa exponent).nearest? (places - count) with
    | some digits =>
      obtain ⟨positive, inside⟩ := Interval.of_mem_nearest? hit
      obtain ⟨positive', same⟩ := stripZeros_spec positive 20 (places - count)
      refine ⟨positive', ?_⟩
      rw [same]
      exact (holdsPoint_iff some _ _).1 inside
    | none =>
      have coarse : count ≠ 17 := by
        rintro rfl
        have hit' := isSome_nearest?_of_fine double some (places - (17 : Nat)) (by
          rw [← zpow_natCast (10 : ℚ) 16, ← zpow_add₀ (by norm_num)]
          convert fine using 2
          push_cast
          ring)
        rw [hit] at hit'
        cases hit'
      exact ih (count + 1) (by omega) (by omega)

/-- **Shortest digits** are rounded to the double that they are the digits of. -/
theorem roundsTo_shortest (double : IsDouble mantissa exponent) (some : 0 < mantissa) :
    0 < (shortest mantissa exponent).1 ∧
      RoundsTo ((shortest mantissa exponent).1 * 10 ^ (shortest mantissa exponent).2) mantissa exponent := by
  refine firstHit_spec double some ?_ 17 1 rfl (by decide)
  rw [← value_div_den]
  exact pow_decimalExponent_le (by exact_mod_cast den_pos mantissa exponent) (den_le_value double some)

end LayeredConfig.Binary64
