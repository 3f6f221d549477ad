import Lox.Grammar.Expression

/-!
# The grammar of statements

A statement that cannot be parsed is dropped where a declaration may stand, and parsing goes on
behind it.  As for expressions, a rule takes the parser of nested statements as an argument and
applies it after a token has been taken.
-/

namespace Lox

/-- The tree of a `for` loop: a block of the initializer and a `while` loop, whose body is a block
of the body and the increment.  Without a condition the loop goes on. -/
def Stmt.forLoop (initializer : Option Stmt) (condition increment : Option Expr) (body : Stmt) :
    Stmt :=
  let iteration := body :: (increment.map Stmt.expression).toList
  let loop := Stmt.while (condition.getD (.literal (.bool true))) (.block iteration)
  .block (initializer.toList ++ [loop])

namespace Grammar

open Lox.Parser

/-- What a statement stands in. -/
structure Context where
  inLoop : Bool
  inFunction : Bool
deriving DecidableEq, Repr

/-- Where a statement stands: among declarations, or as the branch of a condition or the body of a
loop. -/
inductive Position where
  | declaration
  | branch
deriving DecidableEq, Repr

namespace Context

/-- Outside of any loop and function. -/
def top : Context := ⟨false, false⟩

/-- In the body of a function.  A loop around the function does not count. -/
def body : Context := ⟨false, true⟩

/-- In the body of a loop. -/
def loop (context : Context) : Context := { context with inLoop := true }

end Context

/-- The tokens behind a statement that could not be parsed: after the next semicolon, or before the
next keyword that starts a declaration.  At least one token is dropped. -/
def afterFault : List Token → List Token
  | [] => []
  | t :: rest =>
    if t.kind = .semicolon then rest
    else match rest with
      | [] => []
      | next :: _ => if next.kind.startsDeclaration then rest else afterFault rest

/-- Reports a fault that a statement was stopped by, and goes on behind the statement. -/
def recovering (statement : Parser Stmt) : Parser (Option Stmt) := fun ts =>
  let o := statement ts
  match o.reply with
  | .done value rest => ⟨o.reports, .done (some value) rest⟩
  | .abort fault rest => ⟨o.reports ++ [⟨rest.head?, fault⟩], .done none (afterFault rest)⟩

/-- A declaration, unless a closing brace or the end follows. -/
def declaration? (statement : Parser Stmt) (_count : Nat) (ts : List Token) :
    Option (Outcome (Option Stmt)) :=
  if ts.isEmpty || isNext .rightBrace ts then none else some (recovering statement ts)

/-- The statements of a block, up to its closing brace. -/
def block (budget : Nat) (statement : Parser Stmt) : Parser (List Stmt) := do
  let statements ← many (declaration? statement) budget 0
  let _ ← require .braceAfterBlock
  return statements.filterMap id

/-- A variable declaration, behind its keyword. -/
def variableDeclaration (expression : Parser Expr) : Parser Stmt := do
  let name ← require .variableName
  let initializer ← ifNext .equal expression
  let _ ← require .semicolonAfterVariable
  return .var name initializer

/-- A parameter, after `count` others. -/
def parameter (count : Nat) : Parser Lexeme := do
  onlyIf (maxArguments ≤ count) (reportHere .tooManyParameters)
  require .parameterName

/-- A function declaration, behind its keyword. -/
def functionDeclaration (budget : Nat) (statement : Parser Stmt) : Parser Stmt := do
  let name ← require .functionName
  let _ ← require .parenAfterFunctionName
  let params ← separated parameter budget
  let _ ← require .parenAfterParameters
  let _ ← require .braceBeforeBody
  let body ← block budget statement
  return .function name params body

/-- An expression as a statement. -/
def expressionStatement (expression : Parser Expr) : Parser Stmt := do
  let value ← expression
  let _ ← require .semicolonAfterExpression
  return .expression value

/-- A `print` statement, behind its keyword. -/
def printStatement (expression : Parser Expr) : Parser Stmt := do
  let value ← expression
  let _ ← require .semicolonAfterPrint
  return .print value

/-- A `break` statement, behind its keyword. -/
def breakStatement (context : Context) (keyword : Token) : Parser Stmt := do
  onlyIf (!context.inLoop) (reportAt keyword .breakOutsideLoop)
  let _ ← require .semicolonAfterBreak
  return .break keyword.toLexeme

/-- A `return` statement, behind its keyword. -/
def returnStatement (context : Context) (expression : Parser Expr) (keyword : Token) :
    Parser Stmt := do
  onlyIf (!context.inFunction) (reportAt keyword .returnOutsideFunction)
  let value ← unlessNext .semicolon expression
  let _ ← require .semicolonAfterReturn
  return .return keyword.toLexeme value

/-- An `if` statement, behind its keyword.  An `else` belongs to the nearest `if` before it. -/
def ifStatement (expression : Parser Expr) (branch : Parser Stmt) : Parser Stmt := do
  let _ ← require .parenAfterIf
  let condition ← expression
  let _ ← require .parenAfterIfCondition
  let thenBranch ← branch
  let elseBranch ← ifNext .else branch
  return .if condition thenBranch elseBranch

/-- A `while` statement, behind its keyword. -/
def whileStatement (expression : Parser Expr) (body : Parser Stmt) : Parser Stmt := do
  let _ ← require .parenAfterWhile
  let condition ← expression
  let _ ← require .parenAfterWhileCondition
  return .while condition (← body)

/-- The first clause of a `for` statement, with its semicolon. -/
def forInitializer (expression : Parser Expr) : Parser (Option Stmt)
  | [] => (some <$> expressionStatement expression) []
  | t :: rest =>
    match t.kind with
    | .semicolon => .done none rest
    | .var => (some <$> variableDeclaration expression) rest
    | _ => (some <$> expressionStatement expression) (t :: rest)

/-- A `for` statement, behind its keyword. -/
def forStatement (expression : Parser Expr) (body : Parser Stmt) : Parser Stmt := do
  let _ ← require .parenAfterFor
  let initializer ← forInitializer expression
  let condition ← unlessNext .semicolon expression
  let _ ← require .semicolonAfterCondition
  let increment ← unlessNext .rightParen expression
  let _ ← require .parenAfterClauses
  return .forLoop initializer condition increment (← body)

/-- A statement, by its first token. -/
def statementRule (budget : Nat) (expression : Parser Expr)
    (nested : Position → Context → Parser Stmt) (position : Position) (context : Context) :
    Parser Stmt
  | [] => expressionStatement expression []
  | t :: rest =>
    match position, t.kind with
    | .declaration, .fun => functionDeclaration budget (nested .declaration .body) rest
    | .declaration, .var => variableDeclaration expression rest
    | _, .break => breakStatement context t rest
    | _, .for => forStatement expression (nested .branch context.loop) rest
    | _, .if => ifStatement expression (nested .branch context) rest
    | _, .print => printStatement expression rest
    | _, .return => returnStatement context expression t rest
    | _, .while => whileStatement expression (nested .branch context.loop) rest
    | _, .leftBrace => (Stmt.block <$> block budget (nested .declaration context)) rest
    | _, _ => expressionStatement expression (t :: rest)

/-- A statement, or a declaration where one may stand. -/
def statement : Nat → Position → Context → Parser Stmt
  | 0, _, _ => abort .expressionExpected
  | budget + 1, position, context =>
    statementRule budget (expression (budget + 1)) (statement budget) position context

end Grammar

end Lox
