import Lox.Number.Decimal
import Mathlib.Algebra.Order.Field.Power
import Mathlib.Data.List.Basic
import Mathlib.Data.Rat.Cast.Order
import Mathlib.Tactic.Positivity
import Mathlib.Tactic.Ring

/-!
# The value of a decimal in positional notation

Positional notation does not keep the digits and the exponent of a decimal apart: `10` is one unit
of ten as well as ten units of one.  It keeps the value.

* `Decimal.Writes`: the digits before and after the point, and what they say about the value.
* `Decimal.value_eq_of_positional_eq`: decimals that are written alike have the same value.
-/

namespace Lox.Decimal

/-- The number that a decimal stands for. -/
def value (d : Decimal) : ℚ := d.digits * 10 ^ d.exponent

theorem scaleDown_pos (d : Decimal) : 0 < d.scaleDown := Nat.pow_pos (by decide)

theorem ten_zpow (q : Int) :
    (10 : ℚ) ^ q = (Nat.pow 10 q.toNat : Nat) / (Nat.pow 10 (-q).toNat : Nat) := by
  rcases q with n | n
  · have up : (Int.ofNat n).toNat = n := rfl
    have down : (-Int.ofNat n).toNat = 0 := by simp
    rw [up, down]
    simp
  · have up : (Int.negSucc n).toNat = 0 := rfl
    have down : (-Int.negSucc n).toNat = n + 1 := rfl
    rw [up, down]
    simp [zpow_negSucc]

/-- The value as a ratio of natural numbers. -/
theorem value_eq_div (d : Decimal) : d.value = d.digits * d.scaleUp / d.scaleDown := by
  rw [value, ten_zpow, scaleUp, scaleDown, mul_div_assoc]

theorem value_nonneg (d : Decimal) : 0 ≤ d.value :=
  mul_nonneg d.digits.cast_nonneg (zpow_pos (by norm_num) _).le

/-- Units of a power of one half, written as units of a power of one tenth. -/
theorem value_mul_five_pow (units n : Nat) :
    (Decimal.mk (units * Nat.pow 5 n) (-(n : Int))).value = units / 2 ^ n := by
  have up : (Decimal.mk (units * Nat.pow 5 n) (-(n : Int))).scaleUp = 1 := by
    have none : (-(n : Int)).toNat = 0 := by simp
    rw [scaleUp, none]
  have down : (Decimal.mk (units * Nat.pow 5 n) (-(n : Int))).scaleDown = 5 ^ n * 2 ^ n := by
    have all : (- -(n : Int)).toNat = n := by simp
    rw [scaleDown, all, ← Nat.mul_pow]
    rfl
  have five : (5 ^ n : ℚ) ≠ 0 := by positivity
  rw [value_eq_div, up, down, Nat.pow_eq]
  push_cast
  rw [mul_one, mul_comm (units : ℚ), mul_div_mul_left _ _ five]

/-- Digits before and after a point, which is left out if none come after it. -/
def withPoint (whole fraction : List Char) : List Char :=
  if fraction.isEmpty then whole else whole ++ '.' :: fraction

/-- The decimal is written with these digits before and after the point. -/
structure Writes (d : Decimal) (whole fraction : List Char) : Prop where
  positional_eq : d.positional = withPoint whole fraction
  isDigit : ∀ c ∈ whole ++ fraction, c.isDigit
  value_eq : d.value = Nat.ofDigitChars 10 (whole ++ fraction) 0 / 10 ^ fraction.length

theorem isDigit_of_mem_toDigits {n : Nat} {c : Char} (mem : c ∈ Nat.toDigits 10 n) : c.isDigit :=
  Nat.isDigit_of_mem_toDigits (by decide) (by decide) mem

theorem isDigit_of_mem_replicate {n : Nat} {c : Char} (mem : c ∈ List.replicate n '0') :
    c.isDigit := by
  rw [List.eq_of_mem_replicate mem]
  rfl

/-- Units of a power of ten that is at least one: zeros follow the digits. -/
theorem writes_ofNat (digits zeros : Nat) :
    (Decimal.mk digits (.ofNat zeros)).Writes
      (Nat.toDigits 10 digits ++ List.replicate zeros '0') [] where
  positional_eq := rfl
  isDigit := by
    rw [List.append_nil]
    intro c mem
    exact (List.mem_append.1 mem).elim isDigit_of_mem_toDigits isDigit_of_mem_replicate
  value_eq := by
    have up : (Decimal.mk digits (.ofNat zeros)).scaleUp = 10 ^ zeros := rfl
    have down : (Decimal.mk digits (.ofNat zeros)).scaleDown = 1 := by
      have none : (-Int.ofNat zeros).toNat = 0 := by simp
      rw [scaleDown, none]
    rw [value_eq_div, up, down, List.append_nil, Nat.ofDigitChars_append,
      Nat.ofDigitChars_ten_toDigits, Nat.ofDigitChars_replicate_zero, List.length_nil]
    push_cast
    ring

/-- Units of a power of ten below one: as many of the digits as the exponent says are behind the
point. -/
theorem exists_writes_negSucc (digits n : Nat) :
    ∃ whole fraction, (Decimal.mk digits (.negSucc n)).Writes whole fraction := by
  let written := Nat.toDigits 10 digits
  let padded := List.replicate (n + 1 + 1 - written.length) '0' ++ written
  have length : n + 1 < padded.length := by
    rw [List.length_append, List.length_replicate]
    omega
  have behind : (padded.drop (padded.length - (n + 1))).length = n + 1 := by
    rw [List.length_drop]
    omega
  have whole :
      padded.take (padded.length - (n + 1)) ++ padded.drop (padded.length - (n + 1)) = padded :=
    List.take_append_drop _ _
  refine ⟨padded.take (padded.length - (n + 1)), padded.drop (padded.length - (n + 1)), ?_, ?_, ?_⟩
  · have some : (padded.drop (padded.length - (n + 1))).isEmpty = false := by
      rw [List.isEmpty_eq_false_iff_exists_mem]
      exact List.exists_mem_of_length_pos (by omega)
    rw [withPoint, some]
    rfl
  · rw [whole]
    intro c mem
    exact (List.mem_append.1 mem).elim isDigit_of_mem_replicate isDigit_of_mem_toDigits
  · have up : (Decimal.mk digits (.negSucc n)).scaleUp = 1 := rfl
    have down : (Decimal.mk digits (.negSucc n)).scaleDown = 10 ^ (n + 1) := rfl
    rw [whole, behind, value_eq_div, up, down, Nat.ofDigitChars_append,
      Nat.ofDigitChars_replicate_zero, Nat.mul_zero, Nat.ofDigitChars_ten_toDigits]
    push_cast
    ring

theorem exists_writes (d : Decimal) : ∃ whole fraction, d.Writes whole fraction := by
  rcases d with ⟨digits, zeros | n⟩
  · exact ⟨_, _, writes_ofNat digits zeros⟩
  · exact exists_writes_negSucc digits n

namespace Writes

variable {d other : Decimal} {whole fraction wholeOther fractionOther : List Char}

theorem point_not_mem (writes : d.Writes whole fraction) : '.' ∉ whole ++ fraction := by
  intro mem
  exact absurd (writes.isDigit '.' mem) (by decide)

/-- Where the point is tells the digits before it from those behind it. -/
theorem digits_eq (writes : d.Writes whole fraction)
    (writesOther : other.Writes wholeOther fractionOther) (same : d.positional = other.positional) :
    whole = wholeOther ∧ fraction = fractionOther := by
  have absent := writes.point_not_mem
  have absentOther := writesOther.point_not_mem
  rw [List.mem_append, not_or] at absent absentOther
  rw [writes.positional_eq, writesOther.positional_eq] at same
  cases fraction with
  | nil =>
    cases fractionOther with
    | nil => exact ⟨same, rfl⟩
    | cons c cs =>
      have mem : '.' ∈ wholeOther ++ '.' :: c :: cs := by simp
      exact absurd ((congrArg ('.' ∈ ·) same).mpr mem) absent.1
  | cons c cs =>
    cases fractionOther with
    | nil =>
      have mem : '.' ∈ whole ++ '.' :: c :: cs := by simp
      exact absurd ((congrArg ('.' ∈ ·) same).mp mem) absentOther.1
    | cons d ds =>
      obtain ⟨front, -, back⟩ := (List.append_cons_inj_of_notMem absent.1 absent.2).1 same
      exact ⟨front, back⟩

end Writes

/-- Decimals that are written alike have the same value. -/
theorem value_eq_of_positional_eq {d other : Decimal} (same : d.positional = other.positional) :
    d.value = other.value := by
  obtain ⟨whole, fraction, writes⟩ := d.exists_writes
  obtain ⟨_, _, writesOther⟩ := other.exists_writes
  obtain ⟨rfl, rfl⟩ := writes.digits_eq writesOther same
  rw [writes.value_eq, writesOther.value_eq]

/-- Positional notation has nothing in it but digits and the point. -/
theorem isDigit_or_point_of_mem {d : Decimal} {c : Char} (mem : c ∈ d.positional) :
    c.isDigit ∨ c = '.' := by
  obtain ⟨whole, fraction, writes⟩ := d.exists_writes
  have digits := writes.isDigit c
  rw [List.mem_append] at digits
  rw [writes.positional_eq, withPoint] at mem
  split at mem
  · exact .inl (digits (.inl mem))
  · rcases List.mem_append.1 mem with mem | mem
    · exact .inl (digits (.inl mem))
    · rcases List.mem_cons.1 mem with rfl | mem
      · exact .inr rfl
      · exact .inl (digits (.inr mem))

end Lox.Decimal
