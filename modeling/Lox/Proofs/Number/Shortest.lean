import Lox.Proofs.Number.Nearest
import Mathlib.Algebra.Order.Field.Power
import Mathlib.Tactic.Linarith

/-!
# The shortest decimal of a number

The text of a number is the decimal that needs the fewest digits to be read as the number, and that
is nearest to it among those, in positional notation.

* `Magnitude.Shortest`: the decimals that are written, by the magnitude that is nearest to them.
* `Magnitude.shortest_iff`: the search through the powers of ten finds it.
* `Numeral.Shows`: the text of a number.
* `Numeral.shows_iff`: it is the one that is written.
-/

namespace Lox

theorem Decimal.eq_of_value_eq {d other : Decimal} (exponent : d.exponent = other.exponent)
    (value : d.value = other.value) : d = other := by
  have unit : (10 : ℚ) ^ other.exponent ≠ 0 := (zpow_pos (by norm_num) _).ne'
  rw [Decimal.value, Decimal.value, exponent, mul_left_inj' unit, Nat.cast_inj] at value
  rcases d with ⟨digits, place⟩
  rcases other with ⟨otherDigits, otherPlace⟩
  cases exponent
  cases value
  rfl

namespace Magnitude

/-- Between a decimal that is read as the magnitude and the magnitude itself, all are. -/
theorem admits_of_between {x : Magnitude} (positive : 0 < x.significand) {d between : Decimal}
    (admitted : x.admits d) (below : d.value ≤ between.value ∧ between.value ≤ x.value ∨
      x.value ≤ between.value ∧ between.value ≤ d.value) : x.admits between := by
  have middle := low_lt_value positive
  have top := x.value_lt_high
  rw [admits_iff] at admitted ⊢
  have lower := admitted.low_le
  have upper := admitted.le_high
  rcases below with ⟨above, le⟩ | ⟨ge, under⟩
  · rcases (lower.trans above).lt_or_eq with strict | same
    · exact .inl ⟨strict, le.trans_lt top⟩
    · exact .inr ⟨admitted.even (.inl (by linarith)), .inl same.symm⟩
  · rcases (under.trans upper).lt_or_eq with strict | same
    · exact .inl ⟨middle.trans_le ge, strict⟩
    · exact .inr ⟨admitted.even (.inr (by linarith)), .inr same⟩

/-- The decimal is nearer to the magnitude than another one, or as near and not less. -/
def Prefers (x : Magnitude) (d other : Decimal) : Prop :=
  |d.value - x.value| < |other.value - x.value| ∨
    |d.value - x.value| = |other.value - x.value| ∧ other.value ≤ d.value

/-- The decimal that is written for a magnitude: the magnitude is nearest to it, it is a multiple of
the largest power of ten that has such a multiple, and of these multiples it is preferred to all. -/
structure Shortest (x : Magnitude) (d : Decimal) : Prop where
  nearest : x.IsNearest d.value
  coarsest : ∀ other : Decimal, x.IsNearest other.value → other.exponent ≤ d.exponent
  preferred : ∀ other : Decimal, x.IsNearest other.value → other.exponent = d.exponent →
    x.Prefers d other

theorem admits_iff_isNearest {x : Magnitude} (canonical : x.Canonical) {d : Decimal} :
    x.admits d ↔ x.IsNearest d.value := by
  rw [admits_iff, isNearest_iff canonical d.value_nonneg]

theorem Prefers.value_eq {x : Magnitude} {d other : Decimal} (prefers : x.Prefers d other)
    (prefersOther : x.Prefers other d) : d.value = other.value := by
  rcases prefers with nearer | ⟨same, le⟩
  · rcases prefersOther with less | ⟨same, -⟩
    · exact absurd nearer less.asymm
    · exact absurd same nearer.ne'
  · rcases prefersOther with less | ⟨-, ge⟩
    · exact absurd same less.ne'
    · exact le_antisymm ge le

theorem Shortest.unique {x : Magnitude} {d other : Decimal} (shortest : x.Shortest d)
    (shortestOther : x.Shortest other) : d = other := by
  have exponent : d.exponent = other.exponent :=
    le_antisymm (shortestOther.coarsest d shortest.nearest)
      (shortest.coarsest other shortestOther.nearest)
  exact Decimal.eq_of_value_eq exponent
    ((shortest.preferred other shortestOther.nearest exponent.symm).value_eq
      (shortestOther.preferred d shortest.nearest exponent))

/-! ## One power of ten -/

/-- The multiples of a power of ten around a magnitude, as the search computes them. -/
structure Around (x : Magnitude) (exponent : Int) (digits : Nat) (up : Bool) : Prop where
  le : (Decimal.mk digits exponent).value ≤ x.value
  lt : x.value < (Decimal.mk (digits + 1) exponent).value
  up_iff : up ↔ (Decimal.mk (digits + 1) exponent).value - x.value ≤
    x.value - (Decimal.mk digits exponent).value

theorem around (x : Magnitude) (exponent : Int) :
    let grid : Decimal := ⟨1, exponent⟩
    let middle := x.middle * grid.scaleDown
    let step := grid.scaleUp * x.scaleDown
    x.Around exponent (middle / step) (step ≤ 2 * (middle % step)) := by
  intro grid middle step
  have down : 0 < grid.scaleDown := grid.scaleDown_pos
  have upPos : 0 < grid.scaleUp := Nat.pow_pos (by decide)
  have stepPos : 0 < step := Nat.mul_pos upPos x.scaleDown_pos
  have stepCast : (0 : ℚ) < step := Nat.cast_pos.2 stepPos
  have unitPos : (0 : ℚ) < 10 ^ exponent := zpow_pos (by norm_num) _
  have unit : (10 : ℚ) ^ exponent = grid.scaleUp / grid.scaleDown := Decimal.ten_zpow exponent
  -- The magnitude as a number of steps and a rest.
  have parts : x.value = ((middle / step : Nat) + ((middle % step : Nat) : ℚ) / step) *
      10 ^ exponent := by
    have whole : ((middle / step : Nat) : ℚ) + ((middle % step : Nat) : ℚ) / step =
        (middle : ℚ) / step := by
      rw [eq_div_iff stepCast.ne', add_mul, div_mul_cancel₀ _ stepCast.ne']
      norm_cast
      exact Nat.div_add_mod' middle step
    have gridDown : (grid.scaleDown : ℚ) ≠ 0 := (Nat.cast_pos.2 down).ne'
    have gridUp : (grid.scaleUp : ℚ) ≠ 0 := (Nat.cast_pos.2 upPos).ne'
    have xDown : (x.scaleDown : ℚ) ≠ 0 := (Nat.cast_pos.2 x.scaleDown_pos).ne'
    rw [whole, unit, value_eq_middle, Nat.cast_mul, Nat.cast_mul, div_mul_div_comm,
      div_eq_div_iff xDown (mul_ne_zero (mul_ne_zero gridUp xDown) gridDown)]
    ring
  have less : middle % step < step := Nat.mod_lt _ stepPos
  clear_value middle step
  generalize middle / step = digits, middle % step = rest at parts less ⊢
  have small : (rest : ℚ) / step < 1 := by
    rw [div_lt_one stepCast]
    exact Nat.cast_lt.2 less
  have nonneg : 0 ≤ (rest : ℚ) / step := div_nonneg (Nat.cast_nonneg rest) stepCast.le
  refine ⟨?_, ?_, ?_⟩
  · rw [parts, Decimal.value]
    exact mul_le_mul_of_nonneg_right (by linarith) unitPos.le
  · rw [parts, Decimal.value, Nat.cast_add, Nat.cast_one]
    exact mul_lt_mul_of_pos_right (by linarith) unitPos
  · have half : step ≤ 2 * rest ↔ (1 : ℚ) ≤ 2 * ((rest : ℚ) / step) := by
      rw [← mul_div_assoc, le_div_iff₀ stepCast, one_mul]
      norm_cast
    rw [decide_eq_true_iff, half, parts, Decimal.value, Decimal.value,
      Nat.cast_add, Nat.cast_one]
    rw [← sub_mul, ← sub_mul, mul_le_mul_iff_left₀ unitPos]
    constructor
    · intro le
      linarith
    · intro le
      linarith

section Grid

variable {x : Magnitude} (positive : 0 < x.significand) {exponent : Int} {digits : Nat} {up : Bool}
  (around : x.Around exponent digits up)

include positive around in
/-- If a multiple is read as the magnitude, so is the one on its side of the magnitude. -/
theorem Around.side {other : Decimal} (admitted : x.admits other)
    (grid : other.exponent = exponent) :
    (x.admits ⟨digits, exponent⟩ ∧ other.value ≤ (Decimal.mk digits exponent).value) ∨
      (x.admits ⟨digits + 1, exponent⟩ ∧
        (Decimal.mk (digits + 1) exponent).value ≤ other.value) := by
  have unit : (0 : ℚ) ≤ 10 ^ exponent := (zpow_pos (by norm_num) _).le
  by_cases below : other.digits ≤ digits
  · have le : other.value ≤ (Decimal.mk digits exponent).value := by
      rw [Decimal.value, Decimal.value, grid]
      exact mul_le_mul_of_nonneg_right (Nat.cast_le.2 below) unit
    exact .inl ⟨admits_of_between positive admitted (.inl ⟨le, around.le⟩), le⟩
  · have ge : (Decimal.mk (digits + 1) exponent).value ≤ other.value := by
      rw [Decimal.value, Decimal.value, grid]
      exact mul_le_mul_of_nonneg_right (Nat.cast_le.2 (Nat.lt_of_not_le below)) unit
    exact .inr ⟨admits_of_between positive admitted (.inr ⟨around.lt.le, ge⟩), ge⟩

theorem Around.prefers_above (around : x.Around exponent digits up)
    (other : Decimal) (le : other.value ≤ (Decimal.mk digits exponent).value) (taken : up) :
    x.Prefers ⟨digits + 1, exponent⟩ other := by
  have below := around.le
  have above := around.lt
  have near := around.up_iff.1 taken
  rw [Prefers, abs_of_pos (by linarith), abs_of_nonpos (by linarith)]
  rcases lt_or_ge ((Decimal.mk (digits + 1) exponent).value - x.value)
    (-(other.value - x.value)) with less | ge
  · exact .inl less
  · exact .inr ⟨by linarith, by linarith⟩

theorem Around.prefers_below (around : x.Around exponent digits up)
    (other : Decimal) (ge : (Decimal.mk (digits + 1) exponent).value ≤ other.value) (left : ¬ up) :
    x.Prefers ⟨digits, exponent⟩ other := by
  have below := around.le
  have above := around.lt
  have far := mt around.up_iff.2 left
  rw [Prefers, abs_of_nonpos (by linarith), abs_of_pos (by linarith)]
  exact .inl (by linarith)

theorem Around.prefers_same_above (around : x.Around exponent digits up)
    (other : Decimal) (ge : (Decimal.mk (digits + 1) exponent).value ≤ other.value) :
    x.Prefers ⟨digits + 1, exponent⟩ other := by
  have above := around.lt
  rw [Prefers, abs_of_pos (by linarith), abs_of_pos (by linarith)]
  rcases ge.lt_or_eq with less | same
  · exact .inl (by linarith)
  · exact .inr ⟨by rw [same], same.ge⟩

theorem Around.prefers_same_below (around : x.Around exponent digits up)
    (other : Decimal) (le : other.value ≤ (Decimal.mk digits exponent).value) :
    x.Prefers ⟨digits, exponent⟩ other := by
  have below := around.le
  rw [Prefers, abs_of_nonpos (by linarith), abs_of_nonpos (by linarith)]
  rcases le.lt_or_eq with less | same
  · exact .inl (by linarith)
  · exact .inr ⟨by rw [same], same.le⟩

include positive in
/-- What is found among the multiples of a power of ten is preferred to all others that are read as
the magnitude. -/
theorem of_onGrid?_some {d : Decimal} (found : x.onGrid? exponent = some d) :
    d.exponent = exponent ∧ x.admits d ∧
      ∀ other : Decimal, x.admits other → other.exponent = exponent → x.Prefers d other := by
  have around := x.around exponent
  simp only [onGrid?] at found
  split at found
  next above =>
    cases found
    rw [Bool.and_eq_true, Bool.or_eq_true, Bool.not_eq_true'] at above
    refine ⟨rfl, above.1, ?_⟩
    intro other admitted grid
    rcases around.side positive admitted grid with ⟨fits, le⟩ | ⟨-, ge⟩
    · rcases above.2 with none | taken
      · rw [fits] at none
        cases none
      · exact around.prefers_above other le taken
    · exact around.prefers_same_above other ge
  next notAbove =>
    split at found
    next below =>
      cases found
      rw [below, Bool.not_true, Bool.false_or, Bool.and_eq_true, not_and] at notAbove
      refine ⟨rfl, below, ?_⟩
      intro other admitted grid
      rcases around.side positive admitted grid with ⟨-, le⟩ | ⟨fits, ge⟩
      · exact around.prefers_same_below other le
      · exact around.prefers_below other ge (notAbove fits)
    next => cases found

include positive in
theorem of_onGrid?_none (missing : x.onGrid? exponent = none) (other : Decimal)
    (admitted : x.admits other) : other.exponent ≠ exponent := by
  intro grid
  have around := x.around exponent
  simp only [onGrid?] at missing
  split at missing
  next => cases missing
  next notAbove =>
    split at missing
    next => cases missing
    next notBelow =>
      rcases around.side positive admitted grid with ⟨fits, -⟩ | ⟨fits, -⟩
      · exact notBelow fits
      · rw [Bool.eq_false_iff.2 notBelow, Bool.not_false, Bool.true_or, Bool.and_true] at notAbove
        exact notAbove fits

/-! ## All powers of ten -/

include positive in
/-- The search finds the shortest decimal, if it starts high enough and goes on far enough. -/
theorem shortest_shortestFrom (canonical : x.Canonical) {grids : Nat}
    (high : ∀ other : Decimal, x.admits other → other.exponent ≤ exponent)
    (reached : ∃ other : Decimal, x.admits other ∧ exponent < other.exponent + grids) :
    x.Shortest (x.shortestFrom grids exponent) := by
  induction grids generalizing exponent with
  | zero =>
    obtain ⟨other, admitted, low⟩ := reached
    exact absurd (high other admitted) (by omega)
  | succ grids ih =>
    rw [shortestFrom]
    split
    next d found =>
      obtain ⟨grid, admitted, preferred⟩ := of_onGrid?_some positive found
      simp only [admits_iff_isNearest canonical] at admitted preferred high
      refine ⟨admitted, ?_, ?_⟩
      · rw [grid]
        exact high
      · rw [grid]
        exact preferred
    next missing =>
      apply ih
      · intro other admitted
        have le := high other admitted
        have ne := of_onGrid?_none positive missing other admitted
        omega
      · obtain ⟨other, admitted, low⟩ := reached
        exact ⟨other, admitted, by omega⟩

end Grid

/-! ## Where the search starts and ends -/

/-- The power of ten that the search starts at, for a magnitude with this binary logarithm, in units
of the smallest number. -/
def startOf (log : Nat) : Int := ((log : Int) - 1074) * 30103 / 100000 + 2

theorem powerAbove_eq (x : Magnitude) :
    x.powerAbove = startOf (x.significand.log2 + x.exponent) := by
  rw [powerAbove, startOf, Nat.cast_add]

/-- The power of ten above the start is larger than all that is read as the magnitude, and the last
one of the search is less than the distance to what is not. -/
def startsRight (log : Nat) : Bool :=
  let above : Decimal := ⟨1, startOf log + 1⟩
  let last : Decimal := ⟨1, startOf log - 23⟩
  Nat.blt (4 * Nat.pow 2 (log + 1) * above.scaleDown) (above.scaleUp * quartersOfOne) &&
    Nat.ble (last.scaleUp * quartersOfOne * Nat.pow 2 52) (Nat.pow 2 log * last.scaleDown)

theorem startsRight_of_lt {log : Nat} (small : log < 2098) : startsRight log := by
  have all : (List.range 2098).all startsRight = true := by decide +kernel
  exact List.all_eq_true.1 all log (List.mem_range.2 small)

section Range

variable {x : Magnitude} (canonical : x.Canonical) (bounded : x.exponent < 2046)

include canonical in
theorem log2_le : x.significand.log2 ≤ 52 := by
  by_cases zero : x.significand = 0
  · rw [zero]
    decide
  · have lt : x.significand < 2 ^ 53 := canonical.significand_lt
    exact Nat.lt_succ_iff.1 ((Nat.log2_lt zero).2 lt)

include canonical bounded in
theorem startsRight_self : startsRight (x.significand.log2 + x.exponent) := by
  have log := log2_le canonical
  exact startsRight_of_lt (by omega)

include canonical bounded in
theorem high_lt_ten_zpow : x.high < 10 ^ (x.powerAbove + 1) := by
  have right := startsRight_self canonical bounded
  rw [startsRight, Bool.and_eq_true, Nat.blt_eq] at right
  have above := right.1
  rw [← powerAbove_eq] at above
  -- The point half way up is less than twice the power of two that the logarithm tells.
  have double : (4 * x.significand + 2) * 2 ^ x.exponent ≤
      4 * Nat.pow 2 (x.significand.log2 + x.exponent + 1) := by
    have lt : x.significand < 2 ^ (x.significand.log2 + 1) := Nat.lt_log2_self
    have split : Nat.pow 2 (x.significand.log2 + x.exponent + 1) = 2 ^ (x.significand.log2 + 1) *
        2 ^ x.exponent := by
      rw [Nat.pow_eq, ← Nat.pow_add]
      congr 1
      omega
    rw [split, ← Nat.mul_assoc]
    exact Nat.mul_le_mul_right _ (by omega)
  have down : (0 : ℚ) < (Decimal.mk 1 (x.powerAbove + 1)).scaleDown :=
    Nat.cast_pos.2 (Decimal.scaleDown_pos _)
  have unit : (10 : ℚ) ^ (x.powerAbove + 1) =
      (Decimal.mk 1 (x.powerAbove + 1)).scaleUp / (Decimal.mk 1 (x.powerAbove + 1)).scaleDown :=
        Decimal.ten_zpow _
  rw [high_eq, unit, div_lt_div_iff₀ quartersOfOne_pos down]
  exact_mod_cast Nat.lt_of_le_of_lt (Nat.mul_le_mul_right _ double) above

include canonical bounded in
theorem exponent_le_of_admits (positive : 0 < x.significand) {other : Decimal}
    (admitted : x.admits other) : other.exponent ≤ x.powerAbove := by
  by_contra above
  have value : 0 < other.value := (low_pos positive).trans_le (admits_iff.1 admitted).low_le
  have unit : (0 : ℚ) < 10 ^ other.exponent := zpow_pos (by norm_num) _
  rw [Decimal.value, mul_pos_iff_of_pos_right unit, Nat.cast_pos] at value
  have least : (10 : ℚ) ^ other.exponent ≤ other.value := by
    rw [Decimal.value]
    exact le_mul_of_one_le_left unit.le (Nat.one_le_cast.2 value)
  have larger : (10 : ℚ) ^ (x.powerAbove + 1) ≤ 10 ^ other.exponent :=
    zpow_le_zpow_right₀ (by norm_num) (by omega)
  have beyond := high_lt_ten_zpow canonical bounded
  have within := (admits_iff.1 admitted).le_high
  linarith

include canonical bounded in
theorem exists_admits_last (positive : 0 < x.significand) :
    ∃ other : Decimal, x.admits other ∧ x.powerAbove < other.exponent + 24 := by
  have right := startsRight_self canonical bounded
  rw [startsRight, Bool.and_eq_true, Nat.ble_eq] at right
  have last := right.2
  rw [← powerAbove_eq] at last
  have log := log2_le canonical
  have down : (0 : ℚ) < (Decimal.mk 1 (x.powerAbove - 23)).scaleDown :=
    Nat.cast_pos.2 (Decimal.scaleDown_pos _)
  have unit : (10 : ℚ) ^ (x.powerAbove - 23) =
      (Decimal.mk 1 (x.powerAbove - 23)).scaleUp / (Decimal.mk 1 (x.powerAbove - 23)).scaleDown :=
        Decimal.ten_zpow _
  have fine : (10 : ℚ) ^ (x.powerAbove - 23) ≤ ((2 ^ x.exponent : Nat) : ℚ) / quartersOfOne := by
    have power : Nat.pow 2 (x.significand.log2 + x.exponent) ≤ 2 ^ x.exponent * Nat.pow 2 52 := by
      rw [Nat.pow_eq, Nat.pow_eq, ← Nat.pow_add]
      exact Nat.pow_le_pow_right (by decide) (by omega)
    have scaled := last.trans (Nat.mul_le_mul_right _ power)
    rw [Nat.mul_right_comm (2 ^ x.exponent)] at scaled
    rw [unit, div_le_div_iff₀ down quartersOfOne_pos]
    exact_mod_cast Nat.le_of_mul_le_mul_right scaled (Nat.pow_pos (by decide))
  have gap : x.low + ((2 ^ x.exponent : Nat) : ℚ) / quartersOfOne ≤ x.value := by
    have gapPos := x.gap_pos
    have le : (4 * x.significand - x.gap) * 2 ^ x.exponent + 2 ^ x.exponent ≤ 4 * x.significand *
        2 ^ x.exponent := by
      rw [← Nat.succ_mul]
      exact Nat.mul_le_mul_right _ (by omega)
    rw [low_eq, value_eq, ← add_div]
    exact div_le_div_of_nonneg_right (by exact_mod_cast le) quartersOfOne_pos.le
  have around := x.around (x.powerAbove - 23)
  refine ⟨⟨_, x.powerAbove - 23⟩, admits_iff.2 (.inl ⟨?_, around.le.trans_lt x.value_lt_high⟩), ?_⟩
  · have next := around.lt
    rw [Decimal.value, Nat.cast_add, Nat.cast_one, add_mul, one_mul] at next
    rw [Decimal.value]
    linarith
  · change x.powerAbove < x.powerAbove - 23 + 24
    omega

include canonical bounded in
/-- The search finds the decimal that is written for the magnitude. -/
theorem shortest_iff (positive : 0 < x.significand) {d : Decimal} :
    x.Shortest d ↔ d = x.shortest := by
  have found : x.Shortest x.shortest :=
    shortest_shortestFrom positive canonical
      (fun _ => exponent_le_of_admits canonical bounded positive)
      (exists_admits_last canonical bounded positive)
  constructor
  · intro shortest
    exact shortest.unique found
  · rintro rfl
    exact found

end Range

end Magnitude

/-! ## Texts -/

/-- How a decimal is written.  An integer has no point, and a number below one has a zero before
it. -/
inductive Decimal.Spells : Decimal → List Char → Prop where
  | integer {digits zeros : Nat} :
    Spells ⟨digits, (zeros : Int)⟩ (Nat.toDigits 10 digits ++ List.replicate zeros '0')
  | pointed {digits : Nat} {whole fraction : List Char} :
    Nat.toDigits 10 digits = whole ++ fraction →
    whole ≠ [] → fraction ≠ [] →
    Spells ⟨digits, -(fraction.length : Int)⟩ (whole ++ '.' :: fraction)
  | small {digits zeros : Nat} {fraction : List Char} :
    fraction = List.replicate zeros '0' ++ Nat.toDigits 10 digits →
    Spells ⟨digits, -(fraction.length : Int)⟩ ('0' :: '.' :: fraction)

theorem Decimal.positional_negSucc (digits n : Nat) :
    let written := Nat.toDigits 10 digits
    let padded := List.replicate (n + 1 + 1 - written.length) '0' ++ written
    (Decimal.mk digits (.negSucc n)).positional =
      padded.take (padded.length - (n + 1)) ++ '.' :: padded.drop (padded.length - (n + 1)) := rfl

theorem Decimal.Spells.eq_positional {d : Decimal} {text : List Char} (spells : d.Spells text) :
    text = d.positional := by
  cases spells with
  | integer => rfl
  | @pointed digits whole fraction split isWhole isFraction =>
    obtain ⟨n, length⟩ := Nat.exists_eq_add_one_of_ne_zero (mt List.length_eq_zero_iff.1 isFraction)
    have wholePos : 0 < whole.length := List.length_pos_iff.2 isWhole
    have place : -(fraction.length : Int) = .negSucc n := by
      rw [length]
      rfl
    have none : n + 1 + 1 - (whole ++ fraction).length = 0 := by
      rw [List.length_append]
      omega
    have front : (whole ++ fraction).length - (n + 1) = whole.length := by
      rw [List.length_append]
      omega
    rw [place, positional_negSucc, split, none, List.replicate_zero, List.nil_append, front,
      List.take_left, List.drop_left]
  | @small digits zeros fraction split =>
    have some : fraction.length ≠ 0 := by
      have written : Nat.toDigits 10 digits ≠ [] := Nat.toDigits_ne_nil
      rw [split, List.length_append]
      have := List.length_pos_iff.2 written
      omega
    obtain ⟨n, length⟩ := Nat.exists_eq_add_one_of_ne_zero some
    have place : -(fraction.length : Int) = .negSucc n := by
      rw [length]
      rfl
    have total : zeros + (Nat.toDigits 10 digits).length = n + 1 := by
      rw [← length, split, List.length_append, List.length_replicate]
    have pad : n + 1 + 1 - (Nat.toDigits 10 digits).length = zeros + 1 := by omega
    rw [place, positional_negSucc, pad, List.replicate_succ, List.cons_append, ← split,
      List.length_cons, length, Nat.add_sub_cancel_left]
    rfl

theorem Decimal.exists_spells (d : Decimal) : ∃ text, d.Spells text := by
  rcases d with ⟨digits, zeros | n⟩
  · exact ⟨_, .integer⟩
  · let written := Nat.toDigits 10 digits
    by_cases short : written.length ≤ n + 1
    · have length : (List.replicate (n + 1 - written.length) '0' ++ written).length = n + 1 := by
        rw [List.length_append, List.length_replicate]
        omega
      have spells : Spells ⟨digits, _⟩ _ :=
        .small (rfl : _ = List.replicate (n + 1 - written.length) '0' ++ written)
      rw [length] at spells
      exact ⟨_, spells⟩
    · have length : (written.drop (written.length - (n + 1))).length = n + 1 := by
        rw [List.length_drop]
        omega
      have whole : written.take (written.length - (n + 1)) ≠ [] := by
        rw [← List.length_pos_iff, List.length_take]
        omega
      have fraction : written.drop (written.length - (n + 1)) ≠ [] := by
        rw [← List.length_pos_iff, length]
        exact Nat.succ_pos n
      have spells :=
        Spells.pointed (List.take_append_drop (written.length - (n + 1)) written).symm
          whole fraction
      rw [length] at spells
      exact ⟨_, spells⟩

theorem Decimal.spells_iff {d : Decimal} {text : List Char} :
    d.Spells text ↔ text = d.positional := by
  constructor
  · exact Spells.eq_positional
  · rintro rfl
    obtain ⟨text, spells⟩ := d.exists_spells
    rw [← spells.eq_positional]
    exact spells

/-- The exponent of a finite number. -/
theorem Binary64.exponent_lt {x : Float} {negative : Bool} {magnitude : Magnitude}
    (parts : ofFloat x = .finite negative magnitude) : magnitude.exponent < 2046 := by
  have biased : x.toBits.toNat / Nat.pow 2 52 % Nat.pow 2 11 < 2048 := Nat.mod_lt _ (by decide)
  simp only [ofFloat] at parts
  split at parts
  next => split at parts <;> cases parts
  next =>
    split at parts
    next =>
      cases parts
      exact (by decide : 0 < 2046)
    next =>
      cases parts
      change _ - 1 < 2046
      omega

namespace Numeral

/-- The text of a floating-point number, which is told by its parts. -/
inductive Shows : Binary64 → String → Prop where
  | nan : Shows .nan "NaN"
  | infinity : Shows (.infinity false) "inf"
  | minusInfinity : Shows (.infinity true) "-inf"
  | zero {exponent : Nat} : Shows (.finite false ⟨0, exponent⟩) "0"
  | positive {magnitude : Magnitude} {d : Decimal} {text : List Char} : 0 < magnitude.significand →
    magnitude.Shortest d → d.Spells text → Shows (.finite false magnitude) (String.ofList text)
  | negative {magnitude : Magnitude} {text : String} : Shows (.finite false magnitude) text →
    Shows (.finite true magnitude) ("-" ++ text)

theorem shows_magnitude_iff {magnitude : Magnitude} (canonical : magnitude.Canonical)
    (bounded : magnitude.exponent < 2046) {text : String} :
    Shows (.finite false magnitude) text ↔ text = String.ofList (magnitudeText magnitude) := by
  rcases magnitude with ⟨significand, exponent⟩
  by_cases zero : significand = 0
  · subst zero
    constructor
    · intro shows
      cases shows with
      | zero => rfl
      | positive positive => exact absurd positive (Nat.lt_irrefl 0)
    · rintro rfl
      exact .zero
  · have positive : 0 < significand := Nat.pos_of_ne_zero zero
    rw [magnitudeText, if_neg zero]
    constructor
    · intro shows
      cases shows with
      | zero => exact absurd rfl zero
      | positive _ shortest spells =>
        obtain rfl := (Magnitude.shortest_iff canonical bounded positive).1 shortest
        rw [Decimal.spells_iff.1 spells]
    · rintro rfl
      exact .positive positive ((Magnitude.shortest_iff canonical bounded positive).2 rfl)
        (Decimal.spells_iff.2 rfl)

/-- The text that is written for a number is the text of the number. -/
theorem shows_iff {x : Float} {shown : String} :
    Shows (Binary64.ofFloat x) shown ↔ shown = text x := by
  rw [text]
  cases parts : Binary64.ofFloat x with
  | nan =>
    constructor
    · rintro ⟨⟩
      rfl
    · rintro rfl
      exact .nan
  | infinity negative =>
    constructor
    · intro shows
      cases shows <;> rfl
    · rintro rfl
      cases negative
      · exact .infinity
      · exact .minusInfinity
  | finite negative magnitude =>
    have shows_iff : ∀ {text : String}, Shows (.finite false magnitude) text ↔
        text = String.ofList (magnitudeText magnitude) :=
      shows_magnitude_iff (Binary64.of_ofFloat_finite parts).1 (Binary64.exponent_lt parts)
    cases negative with
    | false => exact shows_iff
    | true =>
      have signed : String.ofList ('-' :: magnitudeText magnitude) =
          "-" ++ String.ofList (magnitudeText magnitude) := by
        rw [← String.toList_inj]
        simp
      simp only [↓reduceIte, signed]
      constructor
      · intro shows
        cases shows with
        | negative inner => rw [shows_iff.1 inner]
      · rintro rfl
        exact .negative (shows_iff.2 rfl)

end Numeral

end Lox
