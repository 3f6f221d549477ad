import Lox.Number.Decimal

/-!
# Binary64 numbers in exact arithmetic

A floating-point number is taken apart into a sign and a magnitude, a natural number of units of `2
^ -1074`, which is the distance between the smallest numbers.  `Magnitude.admits` says which
decimals are read as a given magnitude: those nearer to it than to its neighbours, and a decimal
half way between two goes to the one with an even significand.  `Binary64.nearest` rounds a ratio of
natural numbers by the same rule.
-/

namespace Lox

/-- The number `significand · 2 ^ exponent`, in units of `2 ^ -1074`. -/
structure Magnitude where
  significand : Nat
  exponent : Nat
deriving DecidableEq, Repr

/-- A floating-point number, taken apart. -/
inductive Binary64 where
  | nan
  | infinity (negative : Bool)
  | finite (negative : Bool) (magnitude : Magnitude)
deriving DecidableEq, Repr

namespace Magnitude

/-- A significand with its leading bit, the smallest of a normal number. -/
def hidden : Nat := Nat.pow 2 52

/-- The magnitude in units of `2 ^ -1074`. -/
def units (x : Magnitude) : Nat := x.significand * Nat.pow 2 x.exponent

/-- The distance to the number above is `4 · scaleUp / scaleDown`, so the points half way to the
neighbours are whole multiples of this ratio. -/
def scaleUp (x : Magnitude) : Nat := Nat.pow 2 (x.exponent - 1076)

@[inherit_doc scaleUp]
def scaleDown (x : Magnitude) : Nat := Nat.pow 2 (1076 - x.exponent)

/-- The number below is nearer than the number above: the significand is the smallest of its
exponent. -/
def isNarrow (x : Magnitude) : Bool := x.significand == hidden && x.exponent != 0

/-- The magnitude, multiplied by `scaleDown`. -/
def middle (x : Magnitude) : Nat := 4 * x.significand * x.scaleUp

/-- The point half way to the number below, multiplied by `scaleDown`. -/
def lower (x : Magnitude) : Nat := (4 * x.significand - if x.isNarrow then 1 else 2) * x.scaleUp

/-- The point half way to the number above, multiplied by `scaleDown`. -/
def upper (x : Magnitude) : Nat := (4 * x.significand + 2) * x.scaleUp

/-- The decimal is read as this magnitude: it lies between the points half way to the numbers
around, or it is one of them and the significand is even. -/
def admits (x : Magnitude) (d : Decimal) : Bool :=
  let point := d.digits * d.scaleUp * x.scaleDown
  let low := x.lower * d.scaleDown
  let high := x.upper * d.scaleDown
  (low < point && point < high) || (x.significand % 2 == 0 && (point == low || point == high))

/-- The magnitude written in full, as a multiple of `10 ^ -1074`. -/
def exact (x : Magnitude) : Decimal := ⟨x.units * Nat.pow 5 1074, -1074⟩

end Magnitude

namespace Binary64

/-- The parts of a floating-point number. -/
def ofFloat (x : Float) : Binary64 :=
  let bits := x.toBits.toNat
  let negative := Nat.pow 2 63 ≤ bits
  let biased := bits / Nat.pow 2 52 % Nat.pow 2 11
  let fraction := bits % Nat.pow 2 52
  if biased = 2047 then
    if fraction = 0 then .infinity negative else .nan
  else if biased = 0 then .finite negative ⟨fraction, 0⟩
  else .finite negative ⟨Magnitude.hidden + fraction, biased - 1⟩

/-- Positive infinity, which stands for numbers that are too large. -/
def overflow : Float := Float.ofBits 0x7FF0000000000000

/-- The quotient rounded to a natural number, and half way to the even one. -/
def roundHalfEven (num den : Nat) : Nat :=
  let quotient := num / den
  let twice := 2 * (num % den)
  if twice > den || (twice == den && quotient % 2 == 1) then quotient + 1 else quotient

/-- The exponent at which a positive ratio, given in units of `2 ^ -1074`, has a significand of 53
bits, or 0 if it is too small for that. -/
def exponentOf (num den : Nat) : Nat :=
  let estimate := num.log2 - den.log2 - 53
  if num / (den * Nat.pow 2 estimate) < Nat.pow 2 53 then estimate else estimate + 1

/-- The floating-point number nearest to `num / den`, infinity if that is too large.  A significand
that rounds up to `2 ^ 53` carries into the exponent, since both are written side by side. -/
def nearest (num den : Nat) : Float :=
  let units := num * Nat.pow 2 1074
  let exponent := exponentOf units den
  let bits := exponent * Nat.pow 2 52 + roundHalfEven units (den * Nat.pow 2 exponent)
  if bits < 2047 * Nat.pow 2 52 then Float.ofBits (UInt64.ofNat bits) else overflow

end Binary64

namespace Decimal

/-- The floating-point number nearest to a decimal.  Where the first digit stands settles the
numbers that are far too large or too small, so that no large power is formed for them. -/
def toFloat (d : Decimal) : Float :=
  let leading := (Nat.toDigits 10 d.digits).length + d.exponent
  if d.digits = 0 then 0
  else if leading < -330 then 0
  else if 310 < leading then Binary64.overflow
  else Binary64.nearest (d.digits * d.scaleUp) d.scaleDown

end Decimal

end Lox
