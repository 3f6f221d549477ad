/-!
# Decimal numbers

A non-negative decimal number is a natural number of units of a power of ten.  `Decimal.positional`
writes one in positional notation: digits and at most one point, never an exponent.
-/

namespace Lox

/-- The number `digits · 10 ^ exponent`. -/
structure Decimal where
  digits : Nat
  exponent : Int
deriving DecidableEq, Repr

namespace Decimal

/-- The power of ten that a unit is, 1 if the exponent is negative.  The number is `digits · scaleUp
/ scaleDown`. -/
def scaleUp (d : Decimal) : Nat := Nat.pow 10 d.exponent.toNat

/-- The power of ten that a unit is a fraction of, 1 unless the exponent is negative. -/
def scaleDown (d : Decimal) : Nat := Nat.pow 10 (-d.exponent).toNat

/-- Positional notation.  A number below one has a single zero before its point, and a number
without a fraction has no point. -/
def positional (d : Decimal) : List Char :=
  let written := Nat.toDigits 10 d.digits
  match d.exponent with
  | .ofNat zeros => written ++ List.replicate zeros '0'
  | .negSucc n =>
    let places := n + 1
    let padded := List.replicate (places + 1 - written.length) '0' ++ written
    padded.take (padded.length - places) ++ '.' :: padded.drop (padded.length - places)

end Decimal

end Lox
