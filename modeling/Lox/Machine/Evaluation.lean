import Lox.Machine.Native

/-!
# Evaluation

The meaning of expressions and statements as runs on the machine.  Operands and arguments are
evaluated from left to right.  A statement ends with a signal: it completed, or it left through a
`break` or a `return`, which the nearest loop or call takes.  Programs need not end, so the
functions below take a fuel, and a run that uses it up is suspended.  A run that ends is the same
with any more fuel.
-/

namespace Lox

/-- How a statement ended. -/
inductive Signal where
  | completed
  | broke (keyword : Lexeme)
  | returned (keyword : Lexeme) (value : Value)

/-- The value of a call whose body ended with a signal. -/
def Signal.result : Signal → Value
  | .returned _ value => value
  | _ => .nil

/-- The value of a left operand settles the operation. -/
def LogicalOp.isSettledBy (op : LogicalOp) (left : Value) : Bool :=
  match op with
  | .and => !left.isTruthy
  | .or => left.isTruthy

namespace Eval

/-- Applies an operator to the value of its operand. -/
def applyUnary (op : UnaryOp) (line : Nat) (operand : Value) : Eval Value :=
  match op, operand with
  | .negate, .number x => return .number (-x)
  | .negate, _ => fail line .operandNotNumber
  | .not, value => return .bool !value.isTruthy

/-- Combines two numbers. -/
def onNumbers (line : Nat) (left right : Value) (combine : Float → Float → Value) : Eval Value :=
  match left, right with
  | .number x, .number y => return combine x y
  | _, _ => fail line .operandsNotNumbers

/-- Adds two numbers or joins two strings. -/
def add (line : Nat) (left right : Value) : Eval Value :=
  match left, right with
  | .number x, .number y => return .number (x + y)
  | .string x, .string y => return .string (x ++ y)
  | _, _ => fail line .operandsNotAddable

/-- Divides two numbers.  Neither zero is a divisor. -/
def divide (line : Nat) (left right : Value) : Eval Value :=
  match left, right with
  | .number x, .number y => if y == 0 then fail line .divisionByZero else return .number (x / y)
  | _, _ => fail line .operandsNotNumbers

/-- Applies an operator to the values of both of its operands. -/
def applyBinary (op : BinaryOp) (line : Nat) (left right : Value) : Eval Value :=
  match op with
  | .add => add line left right
  | .subtract => onNumbers line left right fun x y => .number (x - y)
  | .multiply => onNumbers line left right fun x y => .number (x * y)
  | .divide => divide line left right
  | .greater => onNumbers line left right fun x y => .bool (x > y)
  | .greaterEqual => onNumbers line left right fun x y => .bool (x ≥ y)
  | .less => onNumbers line left right fun x y => .bool (x < y)
  | .lessEqual => onNumbers line left right fun x y => .bool (x ≤ y)
  | .equal => return .bool (left.equals right)
  | .notEqual => return .bool !left.equals right

/-- The function that a value is. -/
def asCallable (line : Nat) : Value → Eval Callable
  | .callable callable => return callable
  | _ => fail line .notCallable

/-- A function takes as many arguments as it has parameters. -/
def checkArity (line : Nat) (callable : Callable) (arguments : List Value) : Eval Unit :=
  if arguments.length = callable.arity then return ()
  else fail line (.arityMismatch callable.arity arguments.length)

end Eval

open Eval

mutual

/-- The value of an expression. -/
def evaluate : Nat → Expr → Eval Value
  | 0, _ => throw .suspended
  | fuel + 1, expression =>
    match expression with
    | .literal value => return .ofLiteral value
    | .variable name => lookup name
    | .grouping inner => evaluate fuel inner
    | .assign name value => do
      let value ← evaluate fuel value
      assign name value
      return value
    | .unary op mark operand => do
      applyUnary op mark.line (← evaluate fuel operand)
    | .operation left (.binary op) mark right => do
      let left ← evaluate fuel left
      let right ← evaluate fuel right
      applyBinary op mark.line left right
    | .operation left (.logical op) _ right => do
      let left ← evaluate fuel left
      if op.isSettledBy left then return left else evaluate fuel right
    | .call callee paren arguments => do
      let callable ← asCallable paren.line (← evaluate fuel callee)
      let arguments ← evaluateAll fuel arguments
      checkArity paren.line callable arguments
      withinCall paren.line (invoke fuel callable paren.line arguments)

/-- The values of expressions, from left to right. -/
def evaluateAll : Nat → List Expr → Eval (List Value)
  | 0, _ => throw .suspended
  | fuel + 1, expressions =>
    match expressions with
    | [] => return []
    | expression :: rest => do
      let value ← evaluate fuel expression
      return value :: (← evaluateAll fuel rest)

/-- The value of a call.  The body of a declared function runs in a new scope, in the scope it was
declared in. -/
def invoke : Nat → Callable → Nat → List Value → Eval Value
  | 0, _, _, _ => throw .suspended
  | fuel + 1, callable, line, arguments =>
    match callable with
    | .native native => native.invoke line arguments
    | .function closure => do
      let bindings := Bindings.ofArguments closure.params arguments
      let signal ← withScope closure.scope bindings (executeAll fuel closure.body)
      return signal.result

/-- Runs a statement. -/
def execute : Nat → Stmt → Eval Signal
  | 0, _ => throw .suspended
  | fuel + 1, statement =>
    match statement with
    | .expression expression => do
      let _ ← evaluate fuel expression
      return .completed
    | .print expression => do
      print (← evaluate fuel expression).text
      return .completed
    | .var name initializer => do
      define name (← evaluateOption fuel initializer)
      return .completed
    | .function name params body => do
      define name (← declare name params body)
      return .completed
    | .block statements => do
      withScope (← get).current [] (executeAll fuel statements)
    | .if condition thenBranch elseBranch => do
      if (← evaluate fuel condition).isTruthy then execute fuel thenBranch
      else match elseBranch with
        | some elseBranch => execute fuel elseBranch
        | none => return .completed
    | .while condition body => loop fuel condition body
    | .break keyword => return .broke keyword
    | .return keyword value => return .returned keyword (← evaluateOption fuel value)

/-- The value of an expression that may be left out, which is `nil` then. -/
def evaluateOption : Nat → Option Expr → Eval Value
  | 0, _ => throw .suspended
  | fuel + 1, expression =>
    match expression with
    | some expression => evaluate fuel expression
    | none => return .nil

/-- Runs statements in order, up to the first that does not complete. -/
def executeAll : Nat → List Stmt → Eval Signal
  | 0, _ => throw .suspended
  | fuel + 1, statements =>
    match statements with
    | [] => return .completed
    | statement :: rest => do
      match ← execute fuel statement with
      | .completed => executeAll fuel rest
      | signal => return signal

/-- Runs a statement for as long as a condition holds, and until it breaks. -/
def loop : Nat → Expr → Stmt → Eval Signal
  | 0, _, _ => throw .suspended
  | fuel + 1, condition, body => do
    if (← evaluate fuel condition).isTruthy then
      match ← execute fuel body with
      | .completed => loop fuel condition body
      | .broke _ => return .completed
      | signal => return signal
    else return .completed

end

/-- Runs a program.  A `break` or a `return` that no loop or call takes stops it. -/
def interpret (fuel : Nat) : List Stmt → Eval Unit
  | [] => return ()
  | statement :: rest => do
    match ← execute fuel statement with
    | .completed => interpret fuel rest
    | .broke keyword => fail keyword.line .breakOutsideLoop
    | .returned keyword _ => fail keyword.line .returnOutsideFunction

end Lox
