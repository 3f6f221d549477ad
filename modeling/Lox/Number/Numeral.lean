import Lox.Number.Shortest
import Lox.Text.Blank

/-!
# Numerals

The text of a number and the number of a text.  `Numeral.text` writes the shortest decimal that is
read back as the same number, in positional notation, an integer without a point.  `Numeral.read?`
reads what a program may pass off as a number: a decimal with an optional sign and an optional
exponent, or the name of infinity or of no number.  Reading takes time in proportion to the text,
however many digits it has.
-/

namespace Lox.Numeral

/-- The text of a finite magnitude. -/
def magnitudeText (x : Magnitude) : List Char :=
  if x.significand = 0 then ['0'] else x.shortest.positional

/-- The text of a number. -/
def text (x : Float) : String :=
  match Binary64.ofFloat x with
  | .nan => "NaN"
  | .infinity negative => if negative then "-inf" else "inf"
  | .finite negative magnitude =>
    String.ofList (if negative then '-' :: magnitudeText magnitude else magnitudeText magnitude)

/-- The number that a list of decimal digits denotes. -/
def digitsValue (cs : List Char) : Nat :=
  cs.foldl (fun value c => 10 * value + (c.toNat - '0'.toNat)) 0

/-- The number of digits of a numeral that count one by one.  A point half way between two
floating-point numbers has at most 767 significant digits, so this is enough to tell on which side
of it a numeral is. -/
def maxDigits : Nat := 800

/-- The decimal of some digits, the last of which is in the place of `10 ^ exponent`, or a shorter
one that is read as the same floating-point number.  Of the digits behind the first `maxDigits` it
matters only whether all are zero; if not, a one stands for them. -/
def ofDigits (digits : List Char) (exponent : Int) : Decimal :=
  let significant := digits.dropWhile (· == '0')
  let kept := digitsValue (significant.take maxDigits)
  let others := significant.drop maxDigits
  if others.all (· == '0') then ⟨kept, exponent + others.length⟩
  else ⟨10 * kept + 1, exponent + others.length - 1⟩

/-- The decimal with the given digits before and after the point, times `10 ^ shift`. -/
def decimal (whole fraction : List Char) (shift : Int) : Decimal :=
  ofDigits (whole ++ fraction) (shift - fraction.length)

/-- The digits of an exponent count until they amount to this much. -/
def exponentLimit : Nat := Nat.pow 2 16

/-- The number that the digits of an exponent denote.  Once they amount to `exponentLimit` or more,
the digits that follow are passed over. -/
def exponentValue (cs : List Char) : Nat :=
  cs.foldl
    (fun value c => if value < exponentLimit then 10 * value + (c.toNat - '0'.toNat) else value) 0

/-- The exponent with the given digits, of which there must be one. -/
def exponentOf? (negative : Bool) (digits : List Char) : Option Int :=
  if digits.isEmpty || !digits.all Char.isDigit then none
  else if negative then some (-(exponentValue digits : Int))
  else some (exponentValue digits)

/-- An exponent: `e` or `E`, an optional sign, and at least one digit, to the end of the text.  No
text at all is the exponent 0. -/
def exponent? : List Char → Option Int
  | [] => some 0
  | e :: cs =>
    if e == 'e' || e == 'E' then
      match cs with
      | '-' :: digits => exponentOf? true digits
      | '+' :: digits => exponentOf? false digits
      | digits => exponentOf? false digits
    else none

/-- A decimal without a sign: digits with an optional point before, among or after them, and an
optional exponent. -/
def unsigned? (cs : List Char) : Option Float :=
  let whole := cs.takeWhile Char.isDigit
  let rest := cs.dropWhile Char.isDigit
  let (fraction, rest) := match rest with
    | '.' :: after => (after.takeWhile Char.isDigit, after.dropWhile Char.isDigit)
    | _ => ([], rest)
  if whole.isEmpty && fraction.isEmpty then none
  else (exponent? rest).map fun shift => (decimal whole fraction shift).toFloat

/-- A number without a sign: a decimal, or a name in any case. -/
def magnitude? (cs : List Char) : Option Float :=
  match String.ofList (cs.map Char.toLower) with
  | "inf" => some Binary64.overflow
  | "infinity" => some Binary64.overflow
  | "nan" => some (0 / 0)
  | _ => unsigned? cs

/-- The number that a text denotes, if it denotes one.  Blank characters around it do not matter. -/
def read? (text : String) : Option Float :=
  match Text.trim text.toList with
  | '-' :: cs => (magnitude? cs).map Float.neg
  | '+' :: cs => magnitude? cs
  | cs => magnitude? cs

end Lox.Numeral
