import Lox.Number.Numeral
import Lox.Proofs.Number.Positional
import Mathlib.Tactic.FieldSimp
import Mathlib.Tactic.Linarith
import Mathlib.Tactic.Positivity

/-!
# Numbers and their texts

A number is rounded to the nearest magnitude, and half way between two to the one with the even
significand.  The numbers that are rounded to a magnitude lie between the points half way to its
neighbours, so no decimal is read as two magnitudes.  The text of a number is a decimal that is read
as this number, hence it tells the number.

* `Magnitude.IsNearest`: the magnitude that a number is rounded to.
* `Magnitude.isNearest_iff`: it is the one that the number lies around.
* `Magnitude.eq_of_covers`: there is at most one.
* `Magnitude.admits_shortest`: the shortest decimal is read as the magnitude that it is the shortest
  of.
* `Numeral.text_inj`: numbers with the same text are the same.
-/

namespace Lox

namespace Magnitude

/-! ## A magnitude and the points around it -/

/-- The number that a magnitude is. -/
def value (x : Magnitude) : ℚ := x.significand * 2 ^ (x.exponent - 1074 : ℤ)

/-- The point half way to the number below. -/
def low (x : Magnitude) : ℚ := x.lower / x.scaleDown

/-- The point half way to the number above. -/
def high (x : Magnitude) : ℚ := x.upper / x.scaleDown

theorem hidden_pos : 0 < hidden := Nat.pow_pos Nat.two_pos

theorem scaleDown_pos (x : Magnitude) : 0 < x.scaleDown := Nat.pow_pos (by decide)

/-- Below the magnitude, in quarters of the distance to the number above. -/
def gap (x : Magnitude) : Nat := if x.isNarrow then 1 else 2

theorem gap_pos (x : Magnitude) : 0 < x.gap := by
  unfold gap
  split <;> decide

theorem gap_le (x : Magnitude) : x.gap ≤ 2 := by
  unfold gap
  split <;> decide

/-- The number of quarters of the smallest number that make one. -/
def quartersOfOne : Nat := Nat.pow 2 1076

theorem quartersOfOne_pos : (0 : ℚ) < quartersOfOne := by
  unfold quartersOfOne
  generalize 1076 = n
  exact Nat.cast_pos.2 (Nat.pow_pos Nat.two_pos)

theorem quartersOfOne_eq : (quartersOfOne : ℚ) = 4 * 2 ^ (1074 : ℤ) := by
  have more : 1076 = 1074 + 2 := rfl
  have cast : (1074 : ℤ) = ((1074 : Nat) : ℤ) := rfl
  unfold quartersOfOne
  rw [cast, zpow_natCast]
  generalize 1076 = m, 1074 = n at more ⊢
  rw [more, Nat.pow_eq, pow_add]
  push_cast
  ring

theorem pow_sub_mul_pow (e n : Nat) :
    Nat.pow 2 (e - n) * Nat.pow 2 n = 2 ^ e * Nat.pow 2 (n - e) := by
  rw [Nat.pow_eq, Nat.pow_eq, Nat.pow_eq, ← Nat.pow_add, ← Nat.pow_add]
  congr 1
  omega

/-- A point as a number of quarters of the smallest number. -/
theorem mul_scaleUp_div_scaleDown (x : Magnitude) (quarters : Nat) :
    ((quarters * x.scaleUp : Nat) : ℚ) / x.scaleDown =
      ((quarters * 2 ^ x.exponent : Nat) : ℚ) / quartersOfOne := by
  have unit : (0 : ℚ) < x.scaleDown := Nat.cast_pos.2 x.scaleDown_pos
  have same : x.scaleUp * quartersOfOne = 2 ^ x.exponent * x.scaleDown := by
    unfold scaleUp scaleDown quartersOfOne
    generalize 1076 = n
    exact pow_sub_mul_pow x.exponent n
  rw [div_eq_div_iff unit.ne' quartersOfOne_pos.ne', ← Nat.cast_mul, ← Nat.cast_mul,
    Nat.mul_assoc, same, Nat.mul_assoc]

theorem low_eq (x : Magnitude) :
    x.low = (((4 * x.significand - x.gap) * 2 ^ x.exponent : Nat) : ℚ) / quartersOfOne :=
  x.mul_scaleUp_div_scaleDown _

theorem high_eq (x : Magnitude) :
    x.high = (((4 * x.significand + 2) * 2 ^ x.exponent : Nat) : ℚ) / quartersOfOne :=
  x.mul_scaleUp_div_scaleDown _

theorem value_eq (x : Magnitude) :
    x.value = ((4 * x.significand * 2 ^ x.exponent : Nat) : ℚ) / quartersOfOne := by
  have unit : (2 : ℚ) ^ (1074 : ℤ) ≠ 0 := (zpow_pos (by norm_num) _).ne'
  rw [value, zpow_sub₀ (by norm_num), zpow_natCast, quartersOfOne_eq]
  generalize (2 : ℚ) ^ (1074 : ℤ) = one at unit ⊢
  field_simp
  push_cast
  ring

theorem value_eq_middle (x : Magnitude) : x.value = x.middle / x.scaleDown := by
  rw [value_eq, middle, mul_scaleUp_div_scaleDown]

theorem low_lt_value {x : Magnitude} (positive : 0 < x.significand) : x.low < x.value := by
  have gapPos := x.gap_pos
  rw [low_eq, value_eq]
  refine div_lt_div_of_pos_right (Nat.cast_lt.2 ?_) quartersOfOne_pos
  exact Nat.mul_lt_mul_of_pos_right (by omega) (by positivity)

theorem value_lt_high (x : Magnitude) : x.value < x.high := by
  rw [high_eq, value_eq]
  refine div_lt_div_of_pos_right (Nat.cast_lt.2 ?_) quartersOfOne_pos
  exact Nat.mul_lt_mul_of_pos_right (by omega) (by positivity)

theorem low_pos {x : Magnitude} (positive : 0 < x.significand) : 0 < x.low := by
  have gapLe := x.gap_le
  rw [low_eq]
  refine div_pos (Nat.cast_pos.2 ?_) quartersOfOne_pos
  exact Nat.mul_pos (by omega) (by positivity)

theorem low_of_zero {x : Magnitude} (zero : x.significand = 0) : x.low = 0 := by
  rw [low_eq, zero, Nat.mul_zero, Nat.zero_sub, Nat.zero_mul, Nat.cast_zero, zero_div]

theorem low_le_high (x : Magnitude) : x.low ≤ x.high := by
  rw [low_eq, high_eq]
  have le : (4 * x.significand - x.gap) * 2 ^ x.exponent ≤ (4 * x.significand + 2) *
      2 ^ x.exponent :=
    Nat.mul_le_mul_right _ (by omega)
  exact div_le_div_of_nonneg_right (Nat.cast_le.2 le) quartersOfOne_pos.le

/-! ## The numbers that are rounded to a magnitude -/

/-- The number lies between the points half way to the neighbours of the magnitude, or it is one of
them and the significand is even. -/
def Covers (x : Magnitude) (v : ℚ) : Prop :=
  (x.low < v ∧ v < x.high) ∨ (x.significand % 2 = 0 ∧ (v = x.low ∨ v = x.high))

theorem admits_iff {x : Magnitude} {d : Decimal} : x.admits d ↔ x.Covers d.value := by
  have unitX : (0 : ℚ) < x.scaleDown := Nat.cast_pos.2 x.scaleDown_pos
  have unitD : (0 : ℚ) < d.scaleDown := Nat.cast_pos.2 d.scaleDown_pos
  simp only [admits, Covers, low, high, Decimal.value_eq_div, div_lt_div_iff₀ unitX unitD,
    div_lt_div_iff₀ unitD unitX,
    div_eq_div_iff unitD.ne' unitX.ne', Bool.or_eq_true, Bool.and_eq_true,
    decide_eq_true_eq, beq_iff_eq]
  norm_cast

namespace Covers

variable {x : Magnitude} {v : ℚ}

theorem le_high (covers : x.Covers v) : v ≤ x.high := by
  rcases covers with ⟨-, lt⟩ | ⟨-, same | same⟩
  · exact lt.le
  · exact same.trans_le x.low_le_high
  · exact same.le

theorem low_le (covers : x.Covers v) : x.low ≤ v := by
  rcases covers with ⟨lt, -⟩ | ⟨-, same | same⟩
  · exact lt.le
  · exact same.ge
  · exact x.low_le_high.trans same.ge

/-- Only a magnitude with an even significand covers a point half way to a neighbour. -/
theorem even (covers : x.Covers v) (end_ : v = x.low ∨ v = x.high) : x.significand % 2 = 0 := by
  rcases covers with ⟨above, below⟩ | ⟨even, -⟩
  · rcases end_ with same | same
    · exact absurd same above.ne'
    · exact absurd same below.ne
  · exact even

end Covers

/-! ## Magnitudes in order -/

/-- The form in which a floating-point number has its magnitude: a significand of at most 53 bits,
with a leading bit unless the exponent is the least. -/
structure Canonical (x : Magnitude) : Prop where
  significand_lt : x.significand < 2 * hidden
  hidden_le : x.exponent ≠ 0 → hidden ≤ x.significand

/-- Less than another magnitude, as told by exponent and significand. -/
def Below (x y : Magnitude) : Prop :=
  x.exponent < y.exponent ∨ (x.exponent = y.exponent ∧ x.significand < y.significand)

theorem below_trichotomy (x y : Magnitude) : x.Below y ∨ x = y ∨ y.Below x := by
  rcases x with ⟨s, e⟩
  rcases y with ⟨t, f⟩
  simp only [Below, mk.injEq]
  omega

theorem gap_of_hidden {x : Magnitude} (least : x.significand = hidden) (normal : x.exponent ≠ 0) :
    x.gap = 1 := by
  simp [gap, isNarrow, least, normal]

theorem mul_two_pow_le {p q e f : Nat} (le : e ≤ f) (same : e = f → p ≤ q)
    (less : e < f → p ≤ q * 2) : p * 2 ^ e ≤ q * 2 ^ f := by
  rcases le.eq_or_lt with rfl | lt
  · exact Nat.mul_le_mul_right _ (same rfl)
  · calc p * 2 ^ e ≤ q * 2 * 2 ^ e := Nat.mul_le_mul_right _ (less lt)
      _ = q * 2 ^ (e + 1) := by ring
      _ ≤ q * 2 ^ f := Nat.mul_le_mul_left _ (Nat.pow_le_pow_right Nat.two_pos lt)

section Distances

variable {a b v : ℚ} (less : a < b)

include less

theorem nearer_lower_iff : |v - a| < |v - b| ↔ 2 * v < a + b := by
  rw [← sq_lt_sq]
  constructor <;> intro lt <;> nlinarith

theorem nearer_upper_iff : |v - b| < |v - a| ↔ a + b < 2 * v := by
  rw [← sq_lt_sq]
  constructor <;> intro lt <;> nlinarith

theorem asNear_iff : |v - a| = |v - b| ↔ 2 * v = a + b := by
  constructor
  · intro same
    have lower := mt (nearer_lower_iff less).2 same.not_lt
    have upper := mt (nearer_upper_iff less).2 same.not_gt
    linarith
  · intro half
    have lower := mt (nearer_lower_iff less).1 half.not_lt
    have upper := mt (nearer_upper_iff less).1 half.not_gt
    linarith

end Distances

namespace Below

variable {x y : Magnitude} (below : x.Below y)

include below in
/-- Neighbours do not both have an even significand. -/
theorem odd (next : (x.significand + 1) * 2 ^ x.exponent = y.significand * 2 ^ y.exponent) :
    x.significand % 2 = 1 ∨ y.significand % 2 = 1 := by
  have positive : 0 < 2 ^ x.exponent := by positivity
  rcases below with lower | ⟨same, -⟩
  · obtain ⟨steps, exponent⟩ := Nat.exists_eq_add_of_lt lower
    have power : y.significand * 2 ^ y.exponent =
        2 * (y.significand * 2 ^ steps) * 2 ^ x.exponent := by
      rw [exponent]
      ring
    rw [power] at next
    have inner := Nat.eq_of_mul_eq_mul_right positive next
    omega
  · rw [← same] at next
    have inner := Nat.eq_of_mul_eq_mul_right positive next
    omega

variable (canonicalX : x.Canonical) (canonicalY : y.Canonical)

include below canonicalX canonicalY

/-- The number above the lower magnitude is at most the higher one. -/
theorem succ_le :
    (x.significand + 1) * 2 ^ x.exponent ≤ y.significand * 2 ^ y.exponent := by
  have small := canonicalX.significand_lt
  have normal := canonicalY.hidden_le
  unfold Below at below
  exact mul_two_pow_le (by omega) (by omega) (by omega)

/-- The number below the higher magnitude is at least the lower one. -/
theorem le_pred :
    4 * x.significand * 2 ^ x.exponent ≤ (4 * y.significand - 2 * y.gap) * 2 ^ y.exponent := by
  have small := canonicalX.significand_lt
  have normal := canonicalY.hidden_le
  have gapLe := y.gap_le
  have narrow := @gap_of_hidden y
  unfold Below at below
  exact mul_two_pow_le (by omega) (by omega) (by omega)

theorem two_high_le : 2 * x.high ≤ x.value + y.value := by
  have le := below.succ_le canonicalX canonicalY
  rw [high_eq, value_eq, value_eq, ← add_div, ← mul_div_assoc]
  refine div_le_div_of_nonneg_right ?_ quartersOfOne_pos.le
  norm_cast
  linarith

theorem le_two_low : x.value + y.value ≤ 2 * y.low := by
  have le := below.le_pred canonicalX canonicalY
  have twice : 4 * y.significand - 2 * y.gap + 4 * y.significand =
      2 * (4 * y.significand - y.gap) := by
    have gapLe := y.gap_le
    have normal := canonicalY.hidden_le
    have leading := hidden_pos
    unfold Below at below
    omega
  rw [low_eq, value_eq, value_eq, ← add_div, ← mul_div_assoc]
  refine div_le_div_of_nonneg_right ?_ quartersOfOne_pos.le
  norm_cast
  rw [← Nat.mul_assoc, ← twice, Nat.add_mul]
  exact Nat.add_le_add_right le _

theorem not_covers {v : ℚ} (coversX : x.Covers v) (coversY : y.Covers v) : False := by
  have upper := coversX.le_high
  have lower := coversY.low_le
  have high := below.two_high_le canonicalX canonicalY
  have low := below.le_two_low canonicalX canonicalY
  have evenX := coversX.even (.inr (by linarith))
  have evenY := coversY.even (.inl (by linarith))
  have meet : 2 * x.high = x.value + y.value := by linarith
  rw [high_eq, value_eq, value_eq, ← add_div, ← mul_div_assoc,
    div_left_inj' quartersOfOne_pos.ne'] at meet
  norm_cast at meet
  rcases below.odd (by linarith) with oddX | oddY <;> omega

theorem value_lt : x.value < y.value := by
  have le := below.succ_le canonicalX canonicalY
  rw [value_eq, value_eq]
  refine div_lt_div_of_pos_right (Nat.cast_lt.2 ?_) quartersOfOne_pos
  have positive : 0 < 2 ^ x.exponent := by positivity
  linarith

/-- What the lower magnitude covers is not nearer to the other one. -/
theorem nearer_lower {v : ℚ} (covers : x.Covers v) :
    |v - x.value| < |v - y.value| ∨ |v - x.value| = |v - y.value| ∧ x.significand % 2 = 0 := by
  have less := below.value_lt canonicalX canonicalY
  have middle := below.two_high_le canonicalX canonicalY
  have upper := covers.le_high
  rw [nearer_lower_iff less, asNear_iff less]
  rcases (by linarith : 2 * v ≤ x.value + y.value).lt_or_eq with under | half
  · exact .inl under
  · exact .inr ⟨half, covers.even (.inr (by linarith))⟩

/-- What the higher magnitude covers is not nearer to the other one. -/
theorem nearer_upper {v : ℚ} (covers : y.Covers v) :
    |v - y.value| < |v - x.value| ∨ |v - y.value| = |v - x.value| ∧ y.significand % 2 = 0 := by
  have less := below.value_lt canonicalX canonicalY
  have middle := below.le_two_low canonicalX canonicalY
  have lower := covers.low_le
  rw [nearer_upper_iff less, eq_comm, asNear_iff less]
  rcases (by linarith : x.value + y.value ≤ 2 * v).lt_or_eq with above | half
  · exact .inl above
  · exact .inr ⟨half.symm, covers.even (.inl (by linarith))⟩

end Below

/-- No number is rounded to two magnitudes. -/
theorem eq_of_covers {x y : Magnitude} (canonicalX : x.Canonical) (canonicalY : y.Canonical)
    {v : ℚ} (coversX : x.Covers v) (coversY : y.Covers v) : x = y := by
  rcases below_trichotomy x y with below | same | above
  · exact (below.not_covers canonicalX canonicalY coversX coversY).elim
  · exact same
  · exact (above.not_covers canonicalY canonicalX coversY coversX).elim

/-! ## The nearest magnitude -/

/-- No number with a canonical magnitude is nearer than this one, and if one is as near, then this
one has an even significand. -/
def IsNearest (x : Magnitude) (v : ℚ) : Prop :=
  ∀ y : Magnitude, y.Canonical → y ≠ x →
    |v - x.value| < |v - y.value| ∨ |v - x.value| = |v - y.value| ∧ x.significand % 2 = 0

/-- The next magnitude. -/
def succ (x : Magnitude) : Magnitude :=
  if x.significand + 1 = 2 * hidden then ⟨hidden, x.exponent + 1⟩
  else ⟨x.significand + 1, x.exponent⟩

/-- The magnitude before a positive one. -/
def pred (x : Magnitude) : Magnitude :=
  if x.isNarrow then ⟨2 * hidden - 1, x.exponent - 1⟩ else ⟨x.significand - 1, x.exponent⟩

section Neighbours

variable {x : Magnitude} (canonical : x.Canonical)

include canonical in
theorem canonical_succ : x.succ.Canonical := by
  have small := canonical.significand_lt
  have normal := canonical.hidden_le
  have leading := hidden_pos
  unfold succ
  split
  · exact ⟨by simp only; omega, fun _ => Nat.le_refl _⟩
  · exact ⟨by simp only; omega, fun positive => (normal positive).trans (Nat.le_succ _)⟩

include canonical in
theorem canonical_pred : x.pred.Canonical := by
  have small := canonical.significand_lt
  have normal := canonical.hidden_le
  have leading := hidden_pos
  unfold pred
  split
  · exact ⟨by simp only; omega, fun _ => by simp only; omega⟩
  next wide =>
    simp only [isNarrow, Bool.and_eq_true, beq_iff_eq, bne_iff_ne, not_and, not_not] at wide
    exact ⟨by simp only; omega, fun positive => by simp only at positive ⊢; omega⟩

theorem succ_ne (x : Magnitude) : x.succ ≠ x := by
  unfold succ
  split
  · intro same
    exact absurd (congrArg exponent same) (Nat.succ_ne_self _)
  · intro same
    exact absurd (congrArg significand same) (Nat.succ_ne_self _)

theorem pred_ne (positive : 0 < x.significand) : x.pred ≠ x := by
  unfold pred
  split
  next narrow =>
    simp only [isNarrow, Bool.and_eq_true, beq_iff_eq, bne_iff_ne] at narrow
    intro same
    exact absurd (congrArg exponent same) (by simp only; omega)
  next =>
    intro same
    exact absurd (congrArg significand same) (by simp only; omega)

theorem value_add_value_succ (x : Magnitude) : x.value + x.succ.value = 2 * x.high := by
  rw [value_eq, value_eq, high_eq, ← add_div, ← mul_div_assoc]
  congr 1
  norm_cast
  unfold succ
  split
  next last =>
    have double : 4 * hidden * 2 = 4 * x.significand + 4 := by omega
    have next : 4 * hidden * 2 ^ (x.exponent + 1) = (4 * x.significand + 4) * 2 ^ x.exponent := by
      rw [← double]
      ring
    rw [next]
    ring
  next => ring

theorem value_add_value_pred (positive : 0 < x.significand) :
    x.value + x.pred.value = 2 * x.low := by
  rw [value_eq, value_eq, low_eq, ← add_div, ← mul_div_assoc]
  congr 1
  norm_cast
  unfold pred gap
  split
  next narrow =>
    simp only [isNarrow, Bool.and_eq_true, beq_iff_eq, bne_iff_ne] at narrow
    obtain ⟨steps, exponent⟩ := Nat.exists_eq_succ_of_ne_zero narrow.2
    have sum : 2 * (4 * x.significand) + 4 * (2 * hidden - 1) =
        2 * (2 * (4 * x.significand - 1)) := by omega
    rw [exponent, Nat.succ_sub_one, Nat.succ_eq_add_one]
    calc 4 * x.significand * 2 ^ (steps + 1) + 4 * (2 * hidden - 1) * 2 ^ steps
        = (2 * (4 * x.significand) + 4 * (2 * hidden - 1)) * 2 ^ steps := by ring
      _ = 2 * ((4 * x.significand - 1) * 2 ^ (steps + 1)) := by
        rw [sum]
        ring
  next =>
    have sum : 4 * x.significand + 4 * (x.significand - 1) = 2 * (4 * x.significand - 2) := by omega
    rw [← Nat.add_mul, sum, Nat.mul_assoc]

end Neighbours

section IsNearest

variable {x : Magnitude} {v : ℚ} (canonical : x.Canonical) (nearest : x.IsNearest v)

include canonical nearest

theorem IsNearest.lt_high_or : v < x.high ∨ v = x.high ∧ x.significand % 2 = 0 := by
  have top := x.value_lt_high
  have half := x.value_add_value_succ
  have less : x.value < x.succ.value := by linarith
  have far := nearest x.succ (canonical_succ canonical) x.succ_ne
  rw [nearer_lower_iff less, asNear_iff less] at far
  exact far.imp (fun under => by linarith) (fun ⟨same, even⟩ => ⟨by linarith, even⟩)

theorem IsNearest.low_lt_or (nonneg : 0 ≤ v) : x.low < v ∨ v = x.low ∧ x.significand % 2 = 0 := by
  by_cases zero : x.significand = 0
  · rw [low_of_zero zero, zero]
    exact nonneg.lt_or_eq.imp_right fun same => ⟨same.symm, rfl⟩
  · have positive := Nat.pos_of_ne_zero zero
    have bottom := low_lt_value positive
    have half := value_add_value_pred positive
    have less : x.pred.value < x.value := by linarith
    have far := nearest x.pred (canonical_pred canonical) (pred_ne positive)
    rw [nearer_upper_iff less, eq_comm, asNear_iff less] at far
    exact far.imp (fun above => by linarith) (fun ⟨same, even⟩ => ⟨by linarith, even⟩)

end IsNearest

/-- The nearest magnitude is the one that covers the number. -/
theorem isNearest_iff {x : Magnitude} (canonical : x.Canonical) {v : ℚ} (nonneg : 0 ≤ v) :
    x.IsNearest v ↔ x.Covers v := by
  constructor
  · intro nearest
    rcases nearest.low_lt_or canonical nonneg with above | ⟨same, even⟩
    · rcases nearest.lt_high_or canonical with under | ⟨same, even⟩
      · exact .inl ⟨above, under⟩
      · exact .inr ⟨even, .inr same⟩
    · exact .inr ⟨even, .inl same⟩
  · intro covers y canonicalY ne
    rcases below_trichotomy x y with below | same | above
    · exact below.nearer_lower canonical canonicalY covers
    · exact absurd same.symm ne
    · exact above.nearer_upper canonicalY canonical covers

/-! ## The shortest decimal -/

theorem value_exact (x : Magnitude) : x.exact.value = x.value := by
  have units : x.units = x.significand * 2 ^ x.exponent := rfl
  have places : (-1074 : Int) = -((1074 : Nat) : Int) := rfl
  have cast : (1074 : ℤ) = ((1074 : Nat) : ℤ) := rfl
  rw [exact, value, zpow_sub₀ (by norm_num), cast, zpow_natCast, zpow_natCast]
  generalize 1074 = n
  rw [Decimal.value_mul_five_pow, units, ← mul_div_assoc]
  push_cast
  rfl

/-- The magnitude is read from what it is in full. -/
theorem admits_exact {x : Magnitude} (positive : 0 < x.significand) : x.admits x.exact := by
  rw [admits_iff, value_exact]
  exact .inl ⟨low_lt_value positive, x.value_lt_high⟩

theorem admits_of_onGrid? {x : Magnitude} {exponent : Int} {d : Decimal}
    (found : x.onGrid? exponent = some d) : x.admits d := by
  simp only [onGrid?] at found
  split at found
  next fits =>
    cases found
    exact (Bool.and_eq_true _ _ ▸ fits).1
  next =>
    split at found
    next fits =>
      cases found
      exact fits
    next => cases found

theorem admits_shortestFrom {x : Magnitude} (positive : 0 < x.significand) (grids : Nat)
    (exponent : Int) : x.admits (x.shortestFrom grids exponent) := by
  induction grids generalizing exponent with
  | zero => exact admits_exact positive
  | succ grids ih =>
    rw [shortestFrom]
    split
    next found => exact admits_of_onGrid? found
    next => exact ih (exponent - 1)

/-- The shortest decimal is read as the magnitude. -/
theorem admits_shortest {x : Magnitude} (positive : 0 < x.significand) : x.admits x.shortest :=
  admits_shortestFrom positive _ _

end Magnitude

/-! ## Floating-point numbers -/

namespace Binary64

open Float.Model

theorem pow_values :
    Nat.pow 2 63 = 9223372036854775808 ∧ Nat.pow 2 52 = 4503599627370496 ∧ Nat.pow 2 11 = 2048 := by
  decide

/-- The sign in the bits of a number. -/
theorem toNat_sign {bits : Nat} (bound : bits < 18446744073709551616) :
    (decide (9223372036854775808 ≤ bits)).toNat = bits / 9223372036854775808 := by
  by_cases above : 9223372036854775808 ≤ bits
  · rw [decide_eq_true above, Bool.toNat_true]
    omega
  · rw [decide_eq_false above, Bool.toNat_false]
    omega

/-- The bits of a number, told from its parts.  The leading bit of a significand carries into the
exponent. -/
theorem of_ofFloat_finite {x : Float} {negative : Bool} {magnitude : Magnitude}
    (parts : ofFloat x = .finite negative magnitude) :
    magnitude.Canonical ∧ x.toBits.toNat =
      negative.toNat * Nat.pow 2 63 + magnitude.exponent * Nat.pow 2 52 +
      magnitude.significand := by
  have bound : x.toBits.toNat < 18446744073709551616 := x.toBits.toNat_lt
  obtain ⟨sign, hidden, exponents⟩ := pow_values
  simp only [ofFloat, Magnitude.hidden, sign, hidden, exponents] at parts ⊢
  generalize x.toBits.toNat = bits at bound parts ⊢
  have signBit := toNat_sign bound
  split at parts
  next => split at parts <;> cases parts
  next =>
    split at parts
    next subnormal =>
      cases parts
      refine ⟨⟨?_, ?_⟩, ?_⟩
      all_goals simp only [Magnitude.hidden, hidden]; omega
    next normal =>
      cases parts
      refine ⟨⟨?_, ?_⟩, ?_⟩
      all_goals simp only [Magnitude.hidden, hidden]; omega

theorem of_ofFloat_infinity {x : Float} {negative : Bool} (parts : ofFloat x = .infinity negative) :
    x.toBits.toNat = negative.toNat * Nat.pow 2 63 + 2047 * Nat.pow 2 52 := by
  have bound : x.toBits.toNat < 18446744073709551616 := x.toBits.toNat_lt
  obtain ⟨sign, hidden, exponents⟩ := pow_values
  simp only [ofFloat, Magnitude.hidden, sign, hidden, exponents] at parts ⊢
  generalize x.toBits.toNat = bits at bound parts ⊢
  have signBit := toNat_sign bound
  split at parts
  next =>
    split at parts
    next =>
      cases parts
      omega
    next => cases parts
  next => split at parts <;> cases parts

theorem eq_of_toBits_eq {x y : Float} (same : x.toBits.toNat = y.toBits.toNat) : x = y := by
  have bits : x.toModel.toBits = y.toModel.toBits := UInt64.toNat_inj.1 same
  rcases x with ⟨⟨x, _⟩⟩
  rcases y with ⟨⟨y, _⟩⟩
  cases bits
  rfl

/-- The bits of the exponent. -/
theorem toNat_unpackExponent (bits : UInt64) :
    (@UnpackedFloat.unpackExponent Format.binary64 bits.toBitVec).toNat =
      bits.toNat / Nat.pow 2 52 % Nat.pow 2 11 := by
  unfold UnpackedFloat.unpackExponent
  rw [BitVec.toNat_cast, BitVec.extractLsb_toNat, Nat.shiftRight_eq_div_pow]
  rfl

/-- The bits of the fraction. -/
theorem toNat_unpackMantissa (bits : UInt64) :
    (@UnpackedFloat.unpackMantissa Format.binary64 bits.toBitVec).toNat =
      bits.toNat % Nat.pow 2 52 := by
  unfold UnpackedFloat.unpackMantissa
  rw [BitVec.toNat_cast, BitVec.extractLsb_toNat, Nat.shiftRight_zero]
  rfl

/-- There is only one number that is none. -/
theorem of_ofFloat_nan {x : Float} (parts : ofFloat x = .nan) :
    x.toBits.toBitVec = UnpackedFloat.packedNaN Format.binary64 := by
  simp only [ofFloat] at parts
  split at parts
  next top =>
    split at parts
    next => cases parts
    next some =>
      rw [← toNat_unpackExponent] at top
      rw [← toNat_unpackMantissa] at some
      refine x.toModel.valid.eq_packedNaN (BitVec.eq_of_toNat_eq top) ?_
      intro none
      exact some (congrArg BitVec.toNat none)
  next => split at parts <;> cases parts

theorem ofFloat_inj {x y : Float} (same : ofFloat x = ofFloat y) : x = y := by
  apply eq_of_toBits_eq
  cases parts : ofFloat x with
  | nan =>
    have bits := (of_ofFloat_nan parts).trans (of_ofFloat_nan (same ▸ parts)).symm
    exact congrArg BitVec.toNat bits
  | infinity negative =>
    rw [of_ofFloat_infinity parts, of_ofFloat_infinity (same ▸ parts)]
  | finite negative magnitude =>
    rw [(of_ofFloat_finite parts).2, (of_ofFloat_finite (same ▸ parts)).2]

/-- The parts of a finite number. -/
theorem exists_ofFloat_eq {x : Float} (finite : x.isFinite) :
    ∃ negative magnitude, ofFloat x = .finite negative magnitude := by
  have exponent : x.toBits.toNat / Nat.pow 2 52 % Nat.pow 2 11 ≠ 2047 := by
    rw [← toNat_unpackExponent]
    intro top
    have ones : @UnpackedFloat.unpackExponent Format.binary64 x.toModel.toBits.toBitVec = -1#_ :=
      BitVec.eq_of_toNat_eq top
    unfold Float.isFinite Float.Model.isFinite Float.Model.unpack UnpackedFloat.unpack at finite
    simp only [ones, ↓reduceIte] at finite
    split at finite <;> cases finite
  simp only [ofFloat, exponent, ↓reduceIte]
  split
  · exact ⟨_, _, rfl⟩
  · exact ⟨_, _, rfl⟩

end Binary64

/-! ## Texts -/

namespace Numeral

/-- The text of a magnitude is a decimal that is read as the magnitude. -/
theorem exists_admits (x : Magnitude) :
    ∃ d : Decimal, magnitudeText x = d.positional ∧ x.admits d := by
  by_cases zero : x.significand = 0
  · refine ⟨⟨0, 0⟩, by rw [magnitudeText, if_pos zero]; rfl, ?_⟩
    have value : (Decimal.mk 0 0).value = 0 := by simp [Decimal.value]
    exact Magnitude.admits_iff.2
      (.inr ⟨by rw [zero], .inl (by rw [value, Magnitude.low_of_zero zero])⟩)
  · exact ⟨x.shortest, if_neg zero, Magnitude.admits_shortest (Nat.pos_of_ne_zero zero)⟩

theorem magnitudeText_inj {x y : Magnitude} (canonicalX : x.Canonical) (canonicalY : y.Canonical)
    (same : magnitudeText x = magnitudeText y) : x = y := by
  obtain ⟨d, textX, admittedX⟩ := exists_admits x
  obtain ⟨e, textY, admittedY⟩ := exists_admits y
  rw [textX, textY] at same
  rw [Magnitude.admits_iff] at admittedX admittedY
  rw [Decimal.value_eq_of_positional_eq same] at admittedX
  exact Magnitude.eq_of_covers canonicalX canonicalY admittedX admittedY

theorem isDigit_or_point_of_mem_magnitudeText {x : Magnitude} {c : Char}
    (mem : c ∈ magnitudeText x) : c.isDigit ∨ c = '.' := by
  obtain ⟨d, same, -⟩ := exists_admits x
  rw [same] at mem
  exact Decimal.isDigit_or_point_of_mem mem

/-- The characters that the texts of finite numbers are made of. -/
def isNumeric (c : Char) : Bool := c.isDigit || c == '.' || c == '-'

theorem toList_text {x : Float} {negative : Bool} {magnitude : Magnitude}
    (parts : Binary64.ofFloat x = .finite negative magnitude) :
    (text x).toList = if negative then '-' :: magnitudeText magnitude
      else magnitudeText magnitude := by
  rw [text, parts, String.toList_ofList]

theorem isNumeric_of_mem_text {x : Float} (finite : x.isFinite) {c : Char}
    (mem : c ∈ (text x).toList) : isNumeric c := by
  obtain ⟨negative, magnitude, parts⟩ := Binary64.exists_ofFloat_eq finite
  have among : c = '-' ∨ c ∈ magnitudeText magnitude := by
    rw [toList_text parts] at mem
    split at mem
    · exact List.mem_cons.1 mem
    · exact .inr mem
  rw [isNumeric, Bool.or_eq_true, Bool.or_eq_true, beq_iff_eq, beq_iff_eq]
  rcases among with sign | mem
  · exact .inr sign
  · exact .inl (isDigit_or_point_of_mem_magnitudeText mem)

/-- Finite numbers with the same text are the same. -/
theorem text_inj {x y : Float} (finiteX : x.isFinite) (finiteY : y.isFinite)
    (same : text x = text y) : x = y := by
  obtain ⟨negativeX, magnitudeX, partsX⟩ := Binary64.exists_ofFloat_eq finiteX
  obtain ⟨negativeY, magnitudeY, partsY⟩ := Binary64.exists_ofFloat_eq finiteY
  have canonicalX := (Binary64.of_ofFloat_finite partsX).1
  have canonicalY := (Binary64.of_ofFloat_finite partsY).1
  have unsigned : ∀ magnitude : Magnitude, '-' ∉ magnitudeText magnitude := by
    intro magnitude mem
    exact absurd (isDigit_or_point_of_mem_magnitudeText mem) (by decide)
  have lists := congrArg String.toList same
  rw [toList_text partsX, toList_text partsY] at lists
  -- Only the text of a negative number has a sign in it.
  have both : negativeX = negativeY ∧ magnitudeText magnitudeX = magnitudeText magnitudeY := by
    cases negativeX <;> cases negativeY <;> simp only [Bool.false_eq_true, ↓reduceIte] at lists
    · exact ⟨rfl, lists⟩
    · exact absurd (lists ▸ List.mem_cons_self) (unsigned magnitudeX)
    · exact absurd (lists ▸ List.mem_cons_self) (unsigned magnitudeY)
    · exact ⟨rfl, (List.cons_inj_right _).1 lists⟩
  obtain ⟨rfl, texts⟩ := both
  obtain rfl := magnitudeText_inj canonicalX canonicalY texts
  exact Binary64.ofFloat_inj (partsX.trans partsY.symm)

end Numeral

end Lox
