import Lox.Machine.State

/-!
# Native functions

`clock` tells the time, `input` reads a line, and `number` turns a text into a number.
-/

namespace Lox

namespace Native

/-- A line of input without its line end, which is a line feed or a carriage return and a line feed.
A carriage return at the very end of the input is taken for part of a line end, too. -/
def withoutLineEnd (line : String) : String :=
  let strip (c : Char) (reversed : List Char) : List Char :=
    match reversed with
    | last :: rest => if last = c then rest else reversed
    | [] => []
  String.ofList (strip '\r' (strip '\n' line.toList.reverse)).reverse

/-- Reads a line of input, `nil` if there is none. -/
def readLine (line : Nat) : Eval Value := fun machine =>
  let (reading, source) := machine.source.read
  let machine := { machine with source }
  match reading with
  | .line text => .ok (.string (withoutLineEnd text)) machine
  | .ended => .ok .nil machine
  | .failed error => Eval.fail line (.unreadableInput error) machine
  | .pending => .error .suspended machine

/-- Reads the clock. -/
def readClock (line : Nat) : Eval Value := fun machine =>
  let (time, after) := machine.clock.read
  let machine := { machine with clock := after }
  match time with
  | .ok time => .ok (.number time) machine
  | .error error => Eval.fail line (.unreadableClock error) machine

/-- The number that a value is or denotes. -/
def toNumber (line : Nat) (value : Value) : Eval Value :=
  match value with
  | .number x => return .number x
  | .string text =>
    match Numeral.read? text with
    | some x => return .number x
    | none => Eval.fail line (.notNumeric text)
  | other => Eval.fail line (.notNumeric other.text)

/-- Calls a native function with as many arguments as it takes.  Faults are on the given line. -/
def invoke (native : Native) (line : Nat) (arguments : List Value) : Eval Value :=
  match native with
  | .clock => readClock line
  | .input => readLine line
  | .number => toNumber line (arguments.headD .nil)

end Native

end Lox
