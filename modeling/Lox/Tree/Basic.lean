import Lox.Tree.Operator

/-!
# Expressions and statements

The trees that programs are parsed into.  A tree keeps the lexemes that errors at run time are
reported at.  There is no tree for a `for` loop, which is a block around a `while` loop.
-/

namespace Lox

/-- The values that can be written down. -/
inductive Literal where
  | nil
  | bool (value : Bool)
  | number (value : Float)
  | string (value : String)
deriving DecidableEq, Repr

/-- An expression.  Of the token of an operator the tree keeps the operator that its kind stands
for, and its lexeme.  So no tree has a token there that is no operator, and evaluation needs no case
for one. -/
inductive Expr where
  /-- `name = value` -/
  | assign (name : Lexeme) (value : Expr)
  /-- `left op right`, where `mark` is the operator as it was written -/
  | operation (left : Expr) (op : Operator) (mark : Lexeme) (right : Expr)
  /-- `op operand`, where `mark` is the operator as it was written -/
  | unary (op : UnaryOp) (mark : Lexeme) (operand : Expr)
  /-- `callee(arguments)`, where `paren` is the closing parenthesis -/
  | call (callee : Expr) (paren : Lexeme) (arguments : List Expr)
  /-- `(inner)` -/
  | grouping (inner : Expr)
  | literal (value : Literal)
  | variable (name : Lexeme)

/-- A statement. -/
inductive Stmt where
  /-- `{ statements }` -/
  | block (statements : List Stmt)
  | break (keyword : Lexeme)
  | expression (expression : Expr)
  /-- `fun name(params) { body }` -/
  | function (name : Lexeme) (params : List Lexeme) (body : List Stmt)
  /-- `if (condition) thenBranch else elseBranch` -/
  | if (condition : Expr) (thenBranch : Stmt) (elseBranch : Option Stmt)
  | print (expression : Expr)
  | return (keyword : Lexeme) (value : Option Expr)
  /-- `var name = initializer;` -/
  | var (name : Lexeme) (initializer : Option Expr)
  /-- `while (condition) body` -/
  | while (condition : Expr) (body : Stmt)

instance : Inhabited Expr := ⟨.literal .nil⟩

instance : Inhabited Stmt := ⟨.block []⟩

end Lox
