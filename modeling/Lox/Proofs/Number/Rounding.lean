import Lox.Proofs.Number.Nearest
import Mathlib

/-!
# Rounding decimals

A decimal is read as the floating-point number that is nearest to it.  Decimals that are very large
or very small are not rounded at all, and of a numeral with very many digits only the first ones
count one by one.  Neither makes a difference: a point half way between two floating-point numbers
has fewer digits than those that count, so the digits behind them only tell on which side of it the
numeral is.

* `Binary64.Rounds`: the floating-point number that a number is rounded to.
* `Decimal.rounds_toFloat`: decimals are read as the nearest floating-point number.
* `Binary64.Rounds.eq_of_cell`: numbers between the same decimals of 800 digits round alike.
* `Numeral.rounds_ofDigits`: digits are read as the floating-point number nearest to what they
  denote, however many there are.
-/

namespace Lox

/-! ## Rounding a ratio -/

namespace Magnitude

theorem quarters_eq (quarters exponent : Nat) {den : Nat} (positive : 0 < den) :
    ((quarters * 2 ^ exponent : Nat) : ℚ) / quartersOfOne =
      ((quarters * (den * 2 ^ exponent) : Nat) : ℚ) / (den * quartersOfOne : Nat) := by
  have unit : (den : ℚ) ≠ 0 := (Nat.cast_pos.2 positive).ne'
  rw [Nat.mul_left_comm, Nat.cast_mul den, Nat.cast_mul den, mul_div_mul_left _ _ unit]

theorem high_lt_two_pow {x : Magnitude} (canonical : x.Canonical) :
    x.high < ((2 ^ (x.exponent + 55) : Nat) : ℚ) / quartersOfOne := by
  have small := canonical.significand_lt
  have double : 4 * (2 * hidden) = 2 ^ 55 := by decide
  rw [high_eq]
  refine div_lt_div_of_pos_right (Nat.cast_lt.2 ?_) quartersOfOne_pos
  rw [Nat.pow_add, Nat.mul_comm (2 ^ x.exponent)]
  exact Nat.mul_lt_mul_of_pos_right (by omega) (Nat.pow_pos Nat.two_pos)

/-- A ratio of quarters of the smallest number is covered if it lies between the points half way to
the neighbours, all multiplied by its denominator. -/
theorem covers_of_quarters {x : Magnitude} {quarters den : Nat} (positive : 0 < den)
    (low : (4 * x.significand - x.gap) * (den * 2 ^ x.exponent) ≤ quarters)
    (high : quarters ≤ (4 * x.significand + 2) * (den * 2 ^ x.exponent))
    (even : quarters = (4 * x.significand - x.gap) * (den * 2 ^ x.exponent) ∨
      quarters = (4 * x.significand + 2) * (den * 2 ^ x.exponent) → x.significand % 2 = 0) :
    x.Covers ((quarters : ℚ) / (den * quartersOfOne : Nat)) := by
  have unit : (0 : ℚ) < (den * quartersOfOne : Nat) := by
    rw [Nat.cast_mul]
    exact mul_pos (Nat.cast_pos.2 positive) quartersOfOne_pos
  rw [Covers, low_eq, high_eq, quarters_eq _ _ positive, quarters_eq _ _ positive,
    div_lt_div_iff_of_pos_right unit, div_lt_div_iff_of_pos_right unit,
    div_left_inj' unit.ne', div_left_inj' unit.ne', Nat.cast_lt, Nat.cast_lt, Nat.cast_inj,
    Nat.cast_inj]
  clear unit
  omega

end Magnitude

namespace Binary64

/-- The rounded quotient is off by half at most, and by exactly half only if it is even. -/
theorem roundHalfEven_spec (num : Nat) {den : Nat} (positive : 0 < den) :
    2 * num ≤ (2 * roundHalfEven num den + 1) * den ∧
      2 * roundHalfEven num den * den ≤ 2 * num + den ∧
      (2 * num = (2 * roundHalfEven num den + 1) * den ∨
        2 * roundHalfEven num den * den = 2 * num + den → roundHalfEven num den % 2 = 0) := by
  have split := Nat.div_add_mod' num den
  have small := Nat.mod_lt num positive
  unfold roundHalfEven
  generalize num / den = quotient, num % den = rest at split small ⊢
  have up : (2 * (quotient + 1) + 1) * den = 2 * (quotient * den) + 3 * den := by ring
  have upTwice : 2 * (quotient + 1) * den = 2 * (quotient * den) + 2 * den := by ring
  have down : (2 * quotient + 1) * den = 2 * (quotient * den) + den := by ring
  have downTwice : 2 * quotient * den = 2 * (quotient * den) := by ring
  simp only [gt_iff_lt, Bool.or_eq_true, decide_eq_true_eq, Bool.and_eq_true, beq_iff_eq]
  split
  · rw [up, upTwice]
    omega
  · rw [down, downTwice]
    omega

/-- At the exponent of a ratio the quotient has 53 bits, or fewer if the exponent is the least. -/
theorem exponentOf_spec {num den : Nat} (numPos : 0 < num) (denPos : 0 < den) :
    num < 2 * Magnitude.hidden * (den * 2 ^ exponentOf num den) ∧
      (exponentOf num den ≠ 0 → Magnitude.hidden * (den * 2 ^ exponentOf num den) ≤ num) := by
  have numLog := Nat.log2_self_le numPos.ne'
  have numLt : num < 2 ^ (num.log2 + 1) := Nat.lt_log2_self
  have denLog := Nat.log2_self_le denPos.ne'
  have denLt : den < 2 ^ (den.log2 + 1) := Nat.lt_log2_self
  have twice : 2 * Magnitude.hidden = Nat.pow 2 53 := rfl
  rw [twice]
  simp only [exponentOf, Magnitude.hidden, Nat.pow_eq]
  generalize estimated : num.log2 - den.log2 - 53 = estimate
  have divisor : 0 < den * 2 ^ estimate := by positivity
  split
  next fits =>
    rw [Nat.div_lt_iff_lt_mul divisor] at fits
    refine ⟨fits, fun some => ?_⟩
    calc 2 ^ 52 * (den * 2 ^ estimate) ≤ 2 ^ 52 * (2 ^ (den.log2 + 1) * 2 ^ estimate) :=
          Nat.mul_le_mul_left _ (Nat.mul_le_mul_right _ denLt.le)
      _ = 2 ^ num.log2 := by
        rw [← Nat.pow_add, ← Nat.pow_add]
        congr 1
        omega
      _ ≤ num := numLog
  next large =>
    rw [Nat.not_lt, Nat.le_div_iff_mul_le divisor] at large
    refine ⟨?_, fun _ => ?_⟩
    · calc num < 2 ^ (num.log2 + 1) := numLt
        _ ≤ 2 ^ (53 + (den.log2 + (estimate + 1))) := Nat.pow_le_pow_right Nat.two_pos (by omega)
        _ = 2 ^ 53 * (2 ^ den.log2 * 2 ^ (estimate + 1)) := by rw [Nat.pow_add, Nat.pow_add]
        _ ≤ 2 ^ 53 * (den * 2 ^ (estimate + 1)) :=
          Nat.mul_le_mul_left _ (Nat.mul_le_mul_right _ denLog)
    · calc 2 ^ 52 * (den * 2 ^ (estimate + 1)) = 2 ^ 53 * (den * 2 ^ estimate) := by ring
        _ ≤ num := large

/-- The significand is what a positive number of units comes to at the exponent, where `unit` is
what one of the significand stands for. -/
structure RoundedQuotient (num unit exponent significand : Nat) : Prop where
  unit_pos : 0 < unit
  lt : num < 2 * Magnitude.hidden * unit
  le_of_exponent_ne : exponent ≠ 0 → Magnitude.hidden * unit ≤ num
  above : 2 * num ≤ (2 * significand + 1) * unit
  below : 2 * significand * unit ≤ 2 * num + unit
  even : 2 * num = (2 * significand + 1) * unit ∨ 2 * significand * unit = 2 * num + unit →
    significand % 2 = 0

theorem roundedQuotient {num den : Nat} (numPos : 0 < num) (denPos : 0 < den) :
    RoundedQuotient num (den * 2 ^ exponentOf num den) (exponentOf num den)
      (roundHalfEven num (den * 2 ^ exponentOf num den)) := by
  have positive : 0 < den * 2 ^ exponentOf num den := by positivity
  obtain ⟨lt, le⟩ := exponentOf_spec numPos denPos
  obtain ⟨above, below, even⟩ := roundHalfEven_spec num positive
  exact ⟨positive, lt, le, above, below, even⟩

namespace RoundedQuotient

variable {num unit exponent significand : Nat}
  (quotient : RoundedQuotient num unit exponent significand)

include quotient

theorem le : significand ≤ 2 * Magnitude.hidden := by
  obtain ⟨positive, lt, -, -, below, -⟩ := quotient
  by_contra beyond
  nlinarith

theorem hidden_le (normal : exponent ≠ 0) : Magnitude.hidden ≤ significand := by
  obtain ⟨positive, -, ge, above, -, -⟩ := quotient
  have least := ge normal
  by_contra under
  nlinarith

theorem sub_two_mul_le : (4 * significand - 2) * unit ≤ 4 * num := by
  have below := quotient.below
  have twice : 4 * significand * unit = 2 * (2 * significand * unit) := by ring
  rw [Nat.sub_mul, twice]
  omega

theorem even_of_sub_two_mul_eq (half : 4 * num = (4 * significand - 2) * unit) :
    significand % 2 = 0 := by
  have below := quotient.below
  have positive := quotient.unit_pos
  by_cases zero : significand = 0
  · rw [zero]
  · have two : 2 * unit ≤ 2 * significand * unit := Nat.mul_le_mul_right _ (by omega)
    have twice : 4 * significand * unit = 2 * (2 * significand * unit) := by ring
    rw [Nat.sub_mul, twice] at half
    exact quotient.even (.inr (by omega))

theorem le_add_two_mul : 4 * num ≤ (4 * significand + 2) * unit := by
  have above := quotient.above
  linarith

theorem even_of_eq_add_two_mul (half : 4 * num = (4 * significand + 2) * unit) :
    significand % 2 = 0 :=
  quotient.even (.inl (by linarith))

end RoundedQuotient

/-- The magnitude with a significand of 53 bits or fewer, or of one more than that, which carries
into the exponent. -/
def carried (significand exponent : Nat) : Magnitude :=
  if significand = 2 * Magnitude.hidden then ⟨Magnitude.hidden, exponent + 1⟩
  else ⟨significand, exponent⟩

theorem bits_carried (significand exponent : Nat) :
    (carried significand exponent).exponent * Nat.pow 2 52 +
      (carried significand exponent).significand = exponent * Nat.pow 2 52 + significand := by
  unfold carried
  split
  next carry =>
    rw [carry, Magnitude.hidden]
    ring
  next => rfl

section Carried

variable {num unit exponent significand : Nat}
  (quotient : RoundedQuotient num unit exponent significand)

include quotient in
theorem RoundedQuotient.canonical : (carried significand exponent).Canonical := by
  have le := quotient.le
  have leading := Magnitude.hidden_pos
  unfold carried
  split
  · exact ⟨by simp only; omega, fun _ => Nat.le_refl _⟩
  · exact ⟨by simp only; omega, quotient.hidden_le⟩

/-- The point half way down is not above the ratio. -/
theorem RoundedQuotient.low_le (quotient : RoundedQuotient num unit exponent significand) :
    let x : Magnitude := ⟨significand, exponent⟩
    (4 * significand - x.gap) * unit ≤ 4 * num ∧
      (4 * num = (4 * significand - x.gap) * unit → significand % 2 = 0) := by
  intro x
  by_cases narrow : x.isNarrow
  · -- The ratio is not below the magnitude itself.
    have gap : x.gap = 1 := if_pos narrow
    simp only [Magnitude.isNarrow, Bool.and_eq_true, beq_iff_eq, bne_iff_ne] at narrow
    have ge := quotient.le_of_exponent_ne narrow.2
    have leading := Magnitude.hidden_pos
    have lt : (4 * Magnitude.hidden - 1) * unit < 4 * num := by
      calc (4 * Magnitude.hidden - 1) * unit < 4 * Magnitude.hidden * unit :=
            Nat.mul_lt_mul_of_pos_right (by omega) quotient.unit_pos
        _ = 4 * (Magnitude.hidden * unit) := Nat.mul_assoc _ _ _
        _ ≤ 4 * num := Nat.mul_le_mul_left 4 ge
    have least : significand = Magnitude.hidden := narrow.1
    rw [gap, least]
    exact ⟨lt.le, fun same => absurd same lt.ne'⟩
  · have gap : x.gap = 2 := if_neg narrow
    rw [gap]
    exact ⟨quotient.sub_two_mul_le, quotient.even_of_sub_two_mul_eq⟩

/-- Rounding goes to the magnitude that covers the ratio. -/
theorem RoundedQuotient.covers {den : Nat} (positive : 0 < den)
    (quotient : RoundedQuotient num (den * 2 ^ exponent) exponent significand) :
    (carried significand exponent).Covers
      ((4 * num : Nat) / (den * Magnitude.quartersOfOne : Nat)) := by
  unfold carried
  split
  next carry =>
    have narrow : (Magnitude.mk Magnitude.hidden (exponent + 1)).gap = 1 :=
      Magnitude.gap_of_hidden rfl (Nat.succ_ne_zero _)
    have double : den * 2 ^ (exponent + 1) = 2 * (den * 2 ^ exponent) := by ring
    have even : Magnitude.hidden % 2 = 0 := by decide
    refine Magnitude.covers_of_quarters positive ?_ ?_ (fun _ => even)
    · have same : (4 * Magnitude.hidden - 1) * 2 = 4 * significand - 2 := by omega
      rw [narrow, double, ← Nat.mul_assoc, same]
      exact quotient.sub_two_mul_le
    · have lt := quotient.lt
      have positive := quotient.unit_pos
      simp only [double]
      linarith
  next =>
    obtain ⟨low, evenLow⟩ := quotient.low_le
    exact Magnitude.covers_of_quarters positive low quotient.le_add_two_mul
      (fun half => half.elim evenLow quotient.even_of_eq_add_two_mul)

end Carried

/-! ## The bits of a magnitude -/

open Float.Model in
theorem toBits_ofBits {bits : UInt64} (finite : bits.toNat / Nat.pow 2 52 % Nat.pow 2 11 ≠ 2047) :
    (Float.ofBits bits).toBits = bits := by
  have number : @UnpackedFloat.isNaNBits Format.binary64 bits.toBitVec = false := by
    rw [← toNat_unpackExponent] at finite
    rw [UnpackedFloat.isNaNBits, decide_eq_false_iff_not]
    rintro ⟨top, -⟩
    exact finite (congrArg BitVec.toNat top)
  have packed := @UnpackedFloat.pack_unpack Format.binary64 bits.toBitVec (by decide)
  rw [number, if_neg Bool.false_ne_true] at packed
  exact congrArg UInt64.ofBitVec packed

theorem ofFloat_ofBits {x : Magnitude} (canonical : x.Canonical) (bounded : x.exponent < 2046) :
    ofFloat (Float.ofBits (UInt64.ofNat (x.exponent * Nat.pow 2 52 + x.significand))) =
      .finite false x := by
  rcases x with ⟨significand, exponent⟩
  have small : significand < 2 * Magnitude.hidden := canonical.significand_lt
  have normal : exponent ≠ 0 → Magnitude.hidden ≤ significand := canonical.hidden_le
  have bounded : exponent < 2046 := bounded
  obtain ⟨sign, hidden, exponents⟩ := pow_values
  simp only [Magnitude.hidden, hidden] at small normal ⊢
  have toNat : (UInt64.ofNat (exponent * 4503599627370496 + significand)).toNat =
      exponent * 4503599627370496 + significand := by
    rw [UInt64.toNat_ofNat', Nat.mod_eq_of_lt]
    omega
  generalize UInt64.ofNat (exponent * 4503599627370496 + significand) = bits at toNat ⊢
  have finite : bits.toNat / Nat.pow 2 52 % Nat.pow 2 11 ≠ 2047 := by
    rw [toNat, hidden, exponents]
    omega
  rw [ofFloat, toBits_ofBits finite, if_neg finite]
  simp only [Magnitude.hidden, sign, hidden, exponents]
  have nonneg : ¬ 9223372036854775808 ≤ bits.toNat := by omega
  rw [decide_eq_false nonneg]
  split
  · have parts : bits.toNat % 4503599627370496 = significand ∧ 0 = exponent := by omega
    rw [parts.1, ← parts.2]
  · have parts : 4503599627370496 + bits.toNat % 4503599627370496 = significand ∧
        bits.toNat / 4503599627370496 % 2048 - 1 = exponent := by omega
    rw [parts.1, parts.2]

/-! ## The nearest floating-point number -/

/-- A number that is not negative is rounded to the floating-point number: to the nearest magnitude,
or to infinity if that has too large an exponent. -/
inductive Rounds (v : ℚ) : Binary64 → Prop where
  | finite {x : Magnitude} : x.Canonical → x.exponent < 2046 → x.IsNearest v →
    Rounds v (.finite false x)
  | infinity {x : Magnitude} : x.Canonical → 2046 ≤ x.exponent → x.IsNearest v →
    Rounds v (.infinity false)

theorem ofFloat_overflow : ofFloat overflow = .infinity false := by decide +kernel

theorem ofFloat_zero : ofFloat 0 = .finite false ⟨0, 0⟩ := by decide +kernel

theorem ofFloat_nan : ofFloat (0 / 0) = .nan := by decide +kernel

/-- What covers the ratio, as the ratio is rounded. -/
theorem exists_covers {num den : Nat} (numPos : 0 < num) (denPos : 0 < den) :
    let units := num * Nat.pow 2 1074
    let exponent := exponentOf units den
    let bits := exponent * Nat.pow 2 52 + roundHalfEven units (den * Nat.pow 2 exponent)
    ∃ x : Magnitude, x.Canonical ∧ x.Covers (num / den) ∧
      x.exponent * Nat.pow 2 52 + x.significand = bits := by
  intro units exponent bits
  have scalePos : 0 < Nat.pow 2 1074 := by
    generalize 1074 = n
    exact Nat.pow_pos Nat.two_pos
  have unitsPos : 0 < units := Nat.mul_pos numPos scalePos
  have rounded := roundedQuotient unitsPos denPos
  refine ⟨_, rounded.canonical, ?_, bits_carried _ _⟩
  have covers := rounded.covers denPos
  have ratio : ((4 * units : Nat) : ℚ) / (den * Magnitude.quartersOfOne : Nat) = num / den := by
    have one : Magnitude.quartersOfOne = 4 * Nat.pow 2 1074 := by decide +kernel
    have some : ((Nat.pow 2 1074 : Nat) : ℚ) ≠ 0 := Nat.cast_ne_zero.2 scalePos.ne'
    have unfolded : units = num * Nat.pow 2 1074 := rfl
    rw [one, unfolded]
    generalize Nat.pow 2 1074 = scale at some ⊢
    push_cast
    field_simp
  rw [ratio] at covers
  exact covers

theorem rounds_nearest {num den : Nat} (numPos : 0 < num) (denPos : 0 < den) :
    Rounds (num / den) (ofFloat (nearest num den)) := by
  obtain ⟨x, canonical, covers, bits⟩ := exists_covers numPos denPos
  have nearest_x := (Magnitude.isNearest_iff canonical (by positivity)).2 covers
  have small := canonical.significand_lt
  have normal := canonical.hidden_le
  obtain ⟨-, hidden, -⟩ := pow_values
  simp only [nearest]
  rw [← bits]
  split
  next fits =>
    have bounded : x.exponent < 2046 := by
      simp only [Magnitude.hidden, hidden] at normal fits
      omega
    rw [ofFloat_ofBits canonical bounded]
    exact .finite canonical bounded nearest_x
  next beyond =>
    rw [ofFloat_overflow]
    refine .infinity canonical ?_ nearest_x
    simp only [Magnitude.hidden, hidden] at small beyond
    omega

/-- What is less than half the smallest number is rounded to zero. -/
theorem rounds_zero {v : ℚ} (nonneg : 0 ≤ v) (small : v < (Magnitude.mk 0 0).high) :
    Rounds v (.finite false ⟨0, 0⟩) := by
  have canonical : (Magnitude.mk 0 0).Canonical :=
    ⟨Nat.mul_pos Nat.two_pos Magnitude.hidden_pos, fun some => absurd rfl some⟩
  have bottom : (Magnitude.mk 0 0).low = 0 := Magnitude.low_of_zero rfl
  refine .finite canonical (by decide) ((Magnitude.isNearest_iff canonical nonneg).2 ?_)
  rcases nonneg.lt_or_eq with positive | zero
  · exact .inl ⟨by rwa [bottom], small⟩
  · exact .inr ⟨rfl, .inl (by rw [bottom, zero])⟩

theorem ten_zpow_le_high : (10 : ℚ) ^ (-331 : ℤ) ≤ (Magnitude.mk 0 0).high := by
  have bound : Magnitude.quartersOfOne ≤ 2 * 10 ^ 331 := by decide +kernel
  have cast : (-331 : ℤ) = -((331 : Nat) : ℤ) := rfl
  rw [Magnitude.high_eq, cast, zpow_neg, zpow_natCast, inv_eq_one_div,
    div_le_div_iff₀ (by positivity) Magnitude.quartersOfOne_pos, one_mul]
  generalize 331 = n at bound ⊢
  exact_mod_cast bound

/-- The numbers that round to a finite one are not too large. -/
theorem Rounds.eq_infinity {v : ℚ} {b : Binary64} (rounds : Rounds v b) (large : 10 ^ 310 ≤ v) :
    b = .infinity false := by
  cases rounds with
  | infinity => rfl
  | @finite x canonical bounded nearest =>
    have covers := (Magnitude.isNearest_iff canonical (le_trans (by positivity) large)).1 nearest
    have high := covers.le_high
    have lt := Magnitude.high_lt_two_pow canonical
    have bound : 2 ^ (x.exponent + 55) ≤ 10 ^ 310 * Magnitude.quartersOfOne :=
      calc 2 ^ (x.exponent + 55) ≤ 2 ^ 2100 := Nat.pow_le_pow_right Nat.two_pos (by omega)
        _ ≤ 10 ^ 310 * Magnitude.quartersOfOne := by decide +kernel
    have le : ((2 ^ (x.exponent + 55) : Nat) : ℚ) / Magnitude.quartersOfOne ≤ 10 ^ 310 := by
      rw [div_le_iff₀ Magnitude.quartersOfOne_pos]
      exact_mod_cast bound
    exact absurd (large.trans high) (lt.trans_le le).not_ge

end Binary64

/-! ## Decimals -/

namespace Decimal

theorem lt_pow_leading (d : Decimal) :
    d.value < 10 ^ ((Nat.toDigits 10 d.digits).length + d.exponent : ℤ) := by
  have lt : d.digits < 10 ^ (Nat.toDigits 10 d.digits).length :=
    (Nat.length_toDigits_le_iff (by decide) Nat.length_toDigits_pos).1 (Nat.le_refl _)
  rw [value, zpow_add₀ (by norm_num), zpow_natCast]
  exact mul_lt_mul_of_pos_right (by exact_mod_cast lt) (zpow_pos (by norm_num) _)

theorem pow_leading_le {d : Decimal} (some : d.digits ≠ 0) :
    10 ^ ((Nat.toDigits 10 d.digits).length + d.exponent - 1 : ℤ) ≤ d.value := by
  have positive : 0 < (Nat.toDigits 10 d.digits).length := Nat.length_toDigits_pos
  obtain ⟨others, length⟩ := Nat.exists_eq_succ_of_ne_zero positive.ne'
  have ge : 10 ^ others ≤ d.digits := by
    by_cases none : others = 0
    · rw [none]
      exact Nat.pos_of_ne_zero some
    · by_contra less
      have short := (Nat.length_toDigits_le_iff (by decide) (Nat.pos_of_ne_zero none)).2
        (Nat.lt_of_not_le less)
      omega
  have exponent : ((Nat.toDigits 10 d.digits).length + d.exponent - 1 : ℤ) =
      others + d.exponent := by
    rw [length]
    push_cast
    ring
  rw [exponent, value, zpow_add₀ (by norm_num), zpow_natCast]
  exact mul_le_mul_of_nonneg_right (by exact_mod_cast ge) (zpow_pos (by norm_num) _).le

theorem value_mul_ten_pow (digits places : Nat) (exponent : Int) :
    (Decimal.mk (10 ^ places * digits) exponent).value =
      (Decimal.mk digits (exponent + places)).value := by
  rw [value, value, zpow_add₀ (by norm_num), zpow_natCast]
  push_cast
  ring

/-- A decimal is read as the nearest floating-point number. -/
theorem rounds_toFloat (d : Decimal) : Binary64.Rounds d.value (Binary64.ofFloat d.toFloat) := by
  simp only [toFloat]
  split
  next none =>
    have value : d.value = 0 := by simp [value, none]
    have small : d.value < (Magnitude.mk 0 0).high := by
      rw [value]
      exact (zpow_pos (by norm_num) _).trans_le Binary64.ten_zpow_le_high
    rw [Binary64.ofFloat_zero]
    exact Binary64.rounds_zero d.value_nonneg small
  next some =>
    have ratio : Binary64.Rounds d.value
        (Binary64.ofFloat (Binary64.nearest (d.digits * d.scaleUp) d.scaleDown)) := by
      rw [value_eq_div, ← Nat.cast_mul]
      exact Binary64.rounds_nearest
        (Nat.mul_pos (Nat.pos_of_ne_zero some) (Nat.pow_pos (by decide))) d.scaleDown_pos
    split
    next below =>
      have power : (10 : ℚ) ^ ((Nat.toDigits 10 d.digits).length + d.exponent : ℤ) ≤
          10 ^ (-331 : ℤ) := zpow_le_zpow_right₀ (by norm_num) (by omega)
      have small := d.lt_pow_leading.trans_le (power.trans Binary64.ten_zpow_le_high)
      rw [Binary64.ofFloat_zero]
      exact Binary64.rounds_zero d.value_nonneg small
    next =>
      split
      next beyond =>
        have large : (10 : ℚ) ^ 310 ≤ d.value := by
          refine le_trans ?_ (pow_leading_le some)
          rw [← zpow_natCast]
          exact zpow_le_zpow_right₀ (by norm_num) (by push_cast; omega)
        rw [Binary64.ofFloat_overflow, ← ratio.eq_infinity large]
        exact ratio
      next => exact ratio

end Decimal

/-! ## Long numerals -/

namespace Magnitude

variable {x : Magnitude} {k places : Nat} {v w : ℚ}

/-- The points half way between two magnitudes have few digits behind the point. -/
theorem quarters_mul_ten_pow (quarters : Nat) {exponent : Nat} (fine : 1076 ≤ exponent + places) :
    ((quarters * 2 ^ exponent : Nat) : ℚ) / quartersOfOne * 10 ^ places =
      ((quarters * 2 ^ (exponent + places - 1076) * 5 ^ places : Nat) : ℚ) := by
  have ten : 10 ^ places = 2 ^ places * 5 ^ places := by rw [← Nat.mul_pow]
  have split : 2 ^ exponent * 2 ^ places = 2 ^ (exponent + places - 1076) * quartersOfOne := by
    unfold quartersOfOne
    generalize 1076 = n at fine ⊢
    rw [Nat.pow_eq, ← Nat.pow_add, ← Nat.pow_add, Nat.sub_add_cancel fine]
  rw [div_mul_eq_mul_div, div_eq_iff quartersOfOne_pos.ne']
  generalize exponent + places - 1076 = rest, quartersOfOne = one at split ⊢
  norm_cast
  calc quarters * 2 ^ exponent * 10 ^ places
      = quarters * (2 ^ exponent * 2 ^ places) * 5 ^ places := by
        rw [ten]
        ring
    _ = quarters * 2 ^ rest * 5 ^ places * one := by
      rw [split]
      ring

/-- Where a number has 800 digits, the points half way to the neighbours have no more. -/
theorem Covers.fine (canonical : x.Canonical) (large : 10 ^ 799 ≤ k) (above : k < v * 10 ^ places)
    (covers : x.Covers v) : 1076 ≤ x.exponent + places := by
  by_contra coarse
  have positive : (0 : ℚ) < 10 ^ places := by positivity
  have lt : v < ((2 ^ (x.exponent + 55) : Nat) : ℚ) / quartersOfOne :=
    covers.le_high.trans_lt (high_lt_two_pow canonical)
  have scaled : (k : ℚ) < ((2 ^ (x.exponent + 55) : Nat) : ℚ) / quartersOfOne * 10 ^ places :=
    above.trans (mul_lt_mul_of_pos_right lt positive)
  rw [div_mul_eq_mul_div, lt_div_iff₀ quartersOfOne_pos] at scaled
  have less : k * quartersOfOne < 2 ^ (x.exponent + 55) * 10 ^ places := by exact_mod_cast scaled
  have bound : 2 ^ (x.exponent + 55) * 10 ^ places ≤ 10 ^ 799 * quartersOfOne :=
    calc 2 ^ (x.exponent + 55) * 10 ^ places = 2 ^ (x.exponent + 55 + places) * 5 ^ places := by
          rw [Nat.pow_add _ _ places, Nat.mul_assoc, ← Nat.mul_pow]
      _ ≤ 2 ^ 1130 * 5 ^ 1075 :=
        Nat.mul_le_mul (Nat.pow_le_pow_right Nat.two_pos (by omega))
          (Nat.pow_le_pow_right (by decide) (by omega))
      _ ≤ 10 ^ 799 * quartersOfOne := by decide +kernel
  exact absurd (less.trans_le bound) (Nat.mul_le_mul_right _ large).not_gt

/-- What lies between the same decimals of 800 digits is covered by the same magnitude. -/
theorem Covers.of_cell (canonical : x.Canonical) (large : 10 ^ 799 ≤ k)
    (aboveV : k < v * 10 ^ places) (belowV : v * 10 ^ places < k + 1)
    (aboveW : k < w * 10 ^ places) (belowW : w * 10 ^ places < k + 1) (covers : x.Covers v) :
    x.Covers w := by
  have fine := covers.fine canonical large aboveV
  have positive : (0 : ℚ) < 10 ^ places := by positivity
  have low : x.low * 10 ^ places < k + 1 :=
    (mul_le_mul_of_nonneg_right covers.low_le positive.le).trans_lt belowV
  have high : k < x.high * 10 ^ places :=
    aboveV.trans_le (mul_le_mul_of_nonneg_right covers.le_high positive.le)
  rw [low_eq, quarters_mul_ten_pow _ fine] at low
  rw [high_eq, quarters_mul_ten_pow _ fine] at high
  refine .inl ⟨lt_of_mul_lt_mul_right ?_ positive.le, lt_of_mul_lt_mul_right ?_ positive.le⟩
  · rw [low_eq, quarters_mul_ten_pow _ fine]
    refine lt_of_le_of_lt ?_ aboveW
    exact_mod_cast Nat.lt_succ_iff.1 (by exact_mod_cast low)
  · rw [high_eq, quarters_mul_ten_pow _ fine]
    refine belowW.trans_le ?_
    exact_mod_cast Nat.succ_le_of_lt (by exact_mod_cast high)

end Magnitude

namespace Binary64

variable {v w : ℚ} {b c : Binary64}

theorem Rounds.unique (nonneg : 0 ≤ v) (rounds : Rounds v b) (other : Rounds v c) : b = c := by
  have same : ∀ {x y : Magnitude}, x.Canonical → y.Canonical → x.IsNearest v → y.IsNearest v →
      x = y := by
    intro x y canonicalX canonicalY nearestX nearestY
    exact Magnitude.eq_of_covers canonicalX canonicalY
      ((Magnitude.isNearest_iff canonicalX nonneg).1 nearestX)
      ((Magnitude.isNearest_iff canonicalY nonneg).1 nearestY)
  cases rounds with
  | finite canonical bounded nearest =>
    cases other with
    | finite canonicalOther _ nearestOther =>
      rw [same canonical canonicalOther nearest nearestOther]
    | infinity canonicalOther beyond nearestOther =>
      rw [← same canonical canonicalOther nearest nearestOther] at beyond
      exact absurd bounded beyond.not_gt
  | infinity canonical beyond nearest =>
    cases other with
    | finite canonicalOther bounded nearestOther =>
      rw [← same canonical canonicalOther nearest nearestOther] at bounded
      exact absurd bounded beyond.not_gt
    | infinity => rfl

/-- What lies between the same decimals of 800 digits is rounded to the same number. -/
theorem Rounds.eq_of_cell {k : Nat} {q : ℤ} (large : 10 ^ 799 ≤ k)
    (aboveV : k * 10 ^ q < v) (belowV : v < (k + 1) * 10 ^ q)
    (aboveW : k * 10 ^ q < w) (belowW : w < (k + 1) * 10 ^ q)
    (rounds : Rounds v b) (other : Rounds w c) : b = c := by
  have nonneg : (0 : ℚ) ≤ k * 10 ^ q := by positivity
  have nonnegV := nonneg.trans aboveV.le
  have nonnegW := nonneg.trans aboveW.le
  rcases le_or_gt 0 q with whole | negative
  · have beyond : (10 : ℚ) ^ 310 ≤ k * 10 ^ q := by
      have powers : (10 : ℚ) ^ 310 ≤ 10 ^ 799 := pow_le_pow_right₀ (by norm_num) (by decide)
      have cast : ((10 ^ 799 : Nat) : ℚ) ≤ k := Nat.cast_le.2 large
      rw [Nat.cast_pow, Nat.cast_ofNat] at cast
      exact (powers.trans cast).trans
        (le_mul_of_one_le_right k.cast_nonneg (one_le_zpow₀ (by norm_num) whole))
    rw [rounds.eq_infinity (beyond.trans aboveV.le), other.eq_infinity (beyond.trans aboveW.le)]
  · obtain ⟨places, rfl⟩ : ∃ places : Nat, q = -places := ⟨(-q).toNat, by omega⟩
    have scaled : (0 : ℚ) < 10 ^ places := by positivity
    rw [zpow_neg, zpow_natCast, ← div_eq_mul_inv, div_lt_iff₀ scaled] at aboveV aboveW
    rw [zpow_neg, zpow_natCast, ← div_eq_mul_inv, lt_div_iff₀ scaled] at belowV belowW
    have moved : ∀ {x : Magnitude}, x.Canonical → x.IsNearest v → x.IsNearest w := by
      intro x canonical nearest
      rw [Magnitude.isNearest_iff canonical nonnegV] at nearest
      rw [Magnitude.isNearest_iff canonical nonnegW]
      exact nearest.of_cell canonical large aboveV belowV aboveW belowW
    have roundsW : Rounds w b := by
      cases rounds with
      | finite canonical bounded nearest =>
        exact .finite canonical bounded (moved canonical nearest)
      | infinity canonical beyond nearest =>
        exact .infinity canonical beyond (moved canonical nearest)
    exact roundsW.unique nonnegW other

end Binary64

namespace Numeral

theorem digitsValue_eq (cs : List Char) : digitsValue cs = Nat.ofDigitChars 10 cs 0 := by
  rw [Nat.ofDigitChars_eq_foldl]
  rfl

section Digits

variable {c : Char} {cs : List Char}

theorem ofDigitChars_cons_eq (c : Char) (cs : List Char) :
    Nat.ofDigitChars 10 (c :: cs) 0 =
      10 ^ cs.length * (c.toNat - '0'.toNat) + Nat.ofDigitChars 10 cs 0 := by
  rw [Nat.ofDigitChars_cons, Nat.ofDigitChars_eq_ofDigitChars_zero, Nat.mul_zero, Nat.zero_add]

theorem digit_lt (digit : c.isDigit) : c.toNat - '0'.toNat < 10 := by
  have range := Char.isDigit_iff_toNat.1 digit
  have last : '9'.toNat = '0'.toNat + 9 := rfl
  omega

theorem digit_eq_zero_iff (digit : c.isDigit) : c.toNat - '0'.toNat = 0 ↔ c = '0' := by
  have range := Char.isDigit_iff_toNat.1 digit
  rw [← Char.toNat_inj]
  omega

theorem ofDigitChars_lt (digits : ∀ c ∈ cs, c.isDigit) :
    Nat.ofDigitChars 10 cs 0 < 10 ^ cs.length := by
  induction cs with
  | nil => simp
  | cons c cs ih =>
    have first := digit_lt (digits c List.mem_cons_self)
    have rest := ih fun c mem => digits c (List.mem_cons_of_mem _ mem)
    rw [ofDigitChars_cons_eq, List.length_cons, Nat.pow_succ]
    nlinarith

theorem le_ofDigitChars (digit : c.isDigit) (some : c ≠ '0') :
    10 ^ cs.length ≤ Nat.ofDigitChars 10 (c :: cs) 0 := by
  have first := Nat.pos_of_ne_zero (mt (digit_eq_zero_iff digit).1 some)
  rw [ofDigitChars_cons_eq]
  exact (Nat.le_mul_of_pos_right _ first).trans (Nat.le_add_right _ _)

theorem ofDigitChars_eq_zero_iff (digits : ∀ c ∈ cs, c.isDigit) :
    Nat.ofDigitChars 10 cs 0 = 0 ↔ cs.all (· == '0') := by
  induction cs with
  | nil => simp
  | cons c cs ih =>
    have rest := ih fun c mem => digits c (List.mem_cons_of_mem _ mem)
    rw [ofDigitChars_cons_eq, Nat.add_eq_zero_iff, rest, List.all_cons, Bool.and_eq_true]
    refine and_congr_left fun _ => ?_
    rw [Nat.mul_eq_zero, digit_eq_zero_iff (digits c List.mem_cons_self), beq_iff_eq,
      or_iff_right (Nat.pow_pos (by decide)).ne']

theorem ofDigitChars_dropWhile (cs : List Char) :
    Nat.ofDigitChars 10 (cs.dropWhile (· == '0')) 0 = Nat.ofDigitChars 10 cs 0 := by
  induction cs with
  | nil => rfl
  | cons c cs ih =>
    rw [List.dropWhile_cons]
    split
    next zero =>
      rw [ih, ofDigitChars_cons_eq, beq_iff_eq.1 zero]
      simp
    next => rfl

end Digits

/-- A one in place of the digits that do not count one by one makes no difference. -/
theorem ofFloat_eq_of_rest {kept places rest : Nat} {exponent : Int} (large : 10 ^ 799 ≤ kept)
    (some : 0 < rest) (less : rest < 10 ^ places) :
    Binary64.ofFloat (Decimal.mk (10 * kept + 1) (exponent + places - 1)).toFloat =
      Binary64.ofFloat (Decimal.mk (10 ^ places * kept + rest) exponent).toFloat := by
  have unit : (0 : ℚ) < 10 ^ exponent := zpow_pos (by norm_num) _
  have power : (10 : ℚ) ^ (exponent + places) = 10 ^ places * 10 ^ exponent := by
    rw [zpow_add₀ (by norm_num), zpow_natCast, mul_comm]
  have tenth : (10 : ℚ) ^ (exponent + places) = 10 * 10 ^ (exponent + places - 1) := by
    rw [zpow_sub_one₀ (by norm_num)]
    ring
  have tenthPos : (0 : ℚ) < 10 ^ (exponent + places - 1) := zpow_pos (by norm_num) _
  have someCast : (0 : ℚ) < rest := Nat.cast_pos.2 some
  have lessCast : (rest : ℚ) < 10 ^ places := by exact_mod_cast less
  have rounds := (Decimal.mk (10 * kept + 1) (exponent + places - 1)).rounds_toFloat
  have other := (Decimal.mk (10 ^ places * kept + rest) exponent).rounds_toFloat
  refine rounds.eq_of_cell (q := exponent + places) large ?_ ?_ ?_ ?_ other
  · rw [Decimal.value, tenth]
    push_cast
    nlinarith
  · rw [Decimal.value, tenth]
    push_cast
    nlinarith
  · rw [Decimal.value, power]
    push_cast
    nlinarith
  · rw [Decimal.value, power]
    push_cast
    nlinarith

/-- The digits that count one by one, if there are more. -/
theorem le_digitsValue_take {digits : List Char} (isDigit : ∀ c ∈ digits, c.isDigit)
    (first : ∀ c ∈ digits.head?, c ≠ '0') (more : maxDigits < digits.length) :
    10 ^ 799 ≤ digitsValue (digits.take maxDigits) := by
  cases digits with
  | nil => exact absurd more (Nat.not_lt_zero _)
  | cons c digits =>
    have length : (digits.take 799).length = 799 := by
      rw [List.length_take, min_eq_left]
      exact Nat.le_of_lt (Nat.lt_of_succ_lt_succ more)
    have le := @le_ofDigitChars c (digits.take 799) (isDigit c List.mem_cons_self) (first c rfl)
    rw [length] at le
    rw [digitsValue_eq]
    exact le

/-- Digits are read as the floating-point number nearest to the decimal that they denote. -/
theorem rounds_ofDigits {digits : List Char} (isDigit : ∀ c ∈ digits, c.isDigit) (exponent : Int) :
    Binary64.Rounds (Decimal.mk (Nat.ofDigitChars 10 digits 0) exponent).value
      (Binary64.ofFloat (ofDigits digits exponent).toFloat) := by
  have rounds := (Decimal.mk (Nat.ofDigitChars 10 digits 0) exponent).rounds_toFloat
  rw [← ofDigitChars_dropWhile] at rounds ⊢
  have first : ∀ c ∈ (digits.dropWhile (· == '0')).head?, c ≠ '0' := by
    intro c head same
    have stops := List.head?_dropWhile_not (· == '0') digits
    rw [Option.mem_def.1 head, same] at stops
    cases stops
  have isSignificant : ∀ c ∈ digits.dropWhile (· == '0'), c.isDigit :=
    fun c mem => isDigit c ((List.dropWhile_sublist _).subset mem)
  simp only [ofDigits]
  generalize digits.dropWhile (· == '0') = significant at rounds first isSignificant ⊢
  have isOther : ∀ c ∈ significant.drop maxDigits, c.isDigit :=
    fun c mem => isSignificant c (List.mem_of_mem_drop mem)
  have parts : Nat.ofDigitChars 10 significant 0 =
      10 ^ (significant.drop maxDigits).length * digitsValue (significant.take maxDigits) +
        Nat.ofDigitChars 10 (significant.drop maxDigits) 0 := by
    rw [digitsValue_eq, ← Nat.ofDigitChars_eq_ofDigitChars_zero, ← Nat.ofDigitChars_append,
      List.take_append_drop]
  rw [parts] at rounds ⊢
  split
  next zeros =>
    rw [(ofDigitChars_eq_zero_iff isOther).2 zeros, Nat.add_zero, Decimal.value_mul_ten_pow]
    exact Decimal.rounds_toFloat _
  next some =>
    have more : maxDigits < significant.length := by
      by_contra short
      rw [List.drop_eq_nil_of_le (Nat.le_of_not_lt short)] at some
      exact some rfl
    rw [ofFloat_eq_of_rest (le_digitsValue_take isSignificant first more)
      (Nat.pos_of_ne_zero (mt (ofDigitChars_eq_zero_iff isOther).1 some)) (ofDigitChars_lt isOther)]
    exact rounds

end Numeral

end Lox
