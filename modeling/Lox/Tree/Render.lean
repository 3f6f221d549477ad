import Lox.Number.Numeral
import Lox.Tree.Basic

/-!
# Rendering expressions

An expression is rendered as a tree in parentheses with the operator first, such as `(* (- 123)
(group 45.67))`.
-/

namespace Lox

/-- The text of a literal.  A string stands for itself, without quotes. -/
def Literal.text : Literal → String
  | .nil => "nil"
  | .bool value => if value then "true" else "false"
  | .number value => Numeral.text value
  | .string value => value

namespace Expr

/-- A node: its name and its children, separated by blanks, in parentheses. -/
def node (name : String) (children : String) : String := "(" ++ name ++ children ++ ")"

mutual

/-- The rendering of an expression. -/
def render : Expr → String
  | .assign name value => node ("= " ++ name.text) (" " ++ value.render)
  | .operation left _ mark right => node mark.text (" " ++ left.render ++ " " ++ right.render)
  | .unary _ mark operand => node mark.text (" " ++ operand.render)
  | .call callee _ arguments => node "call" (" " ++ callee.render ++ renderAll arguments)
  | .grouping inner => node "group" (" " ++ inner.render)
  | .literal value => value.text
  | .variable name => name.text

/-- The renderings of expressions, with a blank before each. -/
def renderAll : List Expr → String
  | [] => ""
  | e :: es => " " ++ e.render ++ renderAll es

end

end Expr

end Lox
