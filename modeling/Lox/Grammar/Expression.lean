import Lox.Grammar.Outcome
import Lox.Tree.Basic

/-!
# The grammar of expressions

From the least to the most tightly binding form: assignment, the operators by rank, the operators
before an operand, calls, and what stands alone.  A rule takes the parser of nested expressions as
an argument, and applies it only after a token has been taken.  So `expression` ends, with a budget
of at least the number of tokens and the same outcome for any such budget.
-/

namespace Lox.Grammar

open Lox.Parser

/-- The most parameters a function can have, and the most arguments a call can have. -/
def maxArguments : Nat := 255

/-- An expression in parentheses, behind the opening one. -/
def groupingRest (nested : Parser Expr) : Parser Expr := do
  let inner ← nested
  let _ ← require .parenAfterGrouping
  return .grouping inner

/-- A literal, a variable, or an expression in parentheses. -/
def primary (nested : Parser Expr) : Parser Expr
  | [] => .abort .expressionExpected []
  | t :: rest =>
    match t.kind with
    | .nil => .done (.literal .nil) rest
    | .true => .done (.literal (.bool true)) rest
    | .false => .done (.literal (.bool false)) rest
    | .number value => .done (.literal (.number value)) rest
    | .string value => .done (.literal (.string value)) rest
    | .identifier => .done (.variable t.toLexeme) rest
    | .leftParen => groupingRest nested rest
    | _ => .abort .expressionExpected (t :: rest)

/-- An argument, after `count` others. -/
def argument (nested : Parser Expr) (count : Nat) : Parser Expr := do
  onlyIf (maxArguments ≤ count) (reportHere .tooManyArguments)
  nested

/-- The arguments of a call up to its closing parenthesis. -/
def callRest (budget : Nat) (nested : Parser Expr) (callee : Expr) : Parser Expr := do
  let arguments ← separated (argument nested) budget
  let paren ← require .parenAfterArguments
  return .call callee paren arguments

/-- A call of what stands before, if a parenthesis follows. -/
def call? (budget : Nat) (nested : Parser Expr) (callee : Expr) : List Token → Option (Outcome Expr)
  | t :: rest => if t.kind = .leftParen then some (callRest budget nested callee rest) else none
  | [] => none

/-- What stands alone, with any number of calls of it. -/
def call (budget : Nat) (nested : Parser Expr) : Parser Expr := do
  chain (call? budget nested) budget (← primary nested)

/-- Any number of operators before an operand. -/
def unary (budget : Nat) (nested : Parser Expr) : Parser Expr
  | [] => call budget nested []
  | t :: rest =>
    match UnaryOp.ofKind? t.kind with
    | some op => (unary budget nested rest).map (.unary op t.toLexeme)
    | none => call budget nested (t :: rest)

/-- An operation on what stands before, if an operator of the given rank follows. -/
def operation? (rank : Nat) (operand : Parser Expr) (left : Expr) :
    List Token → Option (Outcome Expr)
  | t :: rest =>
    match Operator.ofKind? t.kind with
    | some op =>
      if op.rank = rank then some ((operand rest).map (.operation left op t.toLexeme)) else none
    | none => none
  | [] => none

/-- Operations of at most the given rank.  Operators of one rank group to the left. -/
def operations (budget : Nat) (nested : Parser Expr) : Nat → Parser Expr
  | 0 => unary budget nested
  | rank + 1 => do
    let operand := operations budget nested rank
    chain (operation? (rank + 1) operand) budget (← operand)

/-- The assignment of a value to what stands before it.  Only a variable can be assigned to; what is
assigned to anything else is dropped. -/
def assignTo (target : Expr) (equal : Token) (value : Expr) : Parser Expr :=
  match target with
  | .variable name => return .assign name value
  | _ => do
    reportAt equal .invalidTarget
    return target

/-- An assignment to what stands before, if an equals sign follows. -/
def assignmentRest (nested : Parser Expr) (target : Expr) : Parser Expr
  | [] => .done target []
  | t :: rest =>
    if t.kind = .equal then (nested >>= assignTo target t) rest else .done target (t :: rest)

/-- An assignment, which groups to the right, or an operation. -/
def assignment (budget : Nat) (nested : Parser Expr) : Parser Expr := do
  assignmentRest nested (← operations budget nested Operator.lastRank)

/-- An expression. -/
def expression : Nat → Parser Expr
  | 0 => abort .expressionExpected
  | budget + 1 => assignment budget (expression budget)

end Lox.Grammar
