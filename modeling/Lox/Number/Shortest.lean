import Lox.Number.Binary64

/-!
# The shortest decimal

Of the decimals that are read as a given magnitude, `Magnitude.shortest` is one with the fewest
digits, and of those the nearest; of two equally near ones it is the larger.  Fewest digits means
the coarsest grid of multiples of a power of ten that has a point among the admitted decimals, and
if a grid has one, then one of the two points around the magnitude is one.  So the search goes from
coarse grids to fine ones and looks at two points of each.
-/

namespace Lox.Magnitude

/-- The admitted decimal nearest to the magnitude among the multiples of `10 ^ exponent`, if there
is one. -/
def onGrid? (x : Magnitude) (exponent : Int) : Option Decimal :=
  let grid : Decimal := ⟨1, exponent⟩
  let middle := x.middle * grid.scaleDown
  let step := grid.scaleUp * x.scaleDown
  let below : Decimal := ⟨middle / step, exponent⟩
  let above : Decimal := ⟨middle / step + 1, exponent⟩
  let belowFits := x.admits below
  if x.admits above && (!belowFits || step ≤ 2 * (middle % step)) then some above
  else if belowFits then some below
  else none

/-- The first admitted decimal on a grid from `10 ^ exponent` down, over so many grids; the
magnitude in full after that. -/
def shortestFrom (x : Magnitude) : Nat → Int → Decimal
  | 0, _ => x.exact
  | grids + 1, exponent =>
    match x.onGrid? exponent with
    | some d => d
    | none => x.shortestFrom grids (exponent - 1)

/-- A power of ten above the magnitude, from its binary logarithm: `log10 2` is about 0.30103. -/
def powerAbove (x : Magnitude) : Int :=
  ((x.significand.log2 + x.exponent : Int) - 1074) * 30103 / 100000 + 2

/-- The shortest decimal of a positive magnitude.  Seventeen digits are always enough. -/
def shortest (x : Magnitude) : Decimal := x.shortestFrom 24 x.powerAbove

end Lox.Magnitude
