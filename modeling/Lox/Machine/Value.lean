import Lox.Tree.Render

/-!
# Values

What expressions evaluate to.  A function value knows which execution of its declaration made it,
and two function values are equal only if the same one did.
-/

namespace Lox

/-- The place of a scope in the store of scopes. -/
abbrev ScopeId := Nat

/-- The functions that every program can call without declaring them. -/
inductive Native where
  | clock
  | input
  | number
deriving DecidableEq, Repr

/-- A declared function, together with the scope it was declared in. -/
structure Closure where
  /-- Tells apart the executions of function declarations. -/
  identity : Nat
  name : Lexeme
  params : List Lexeme
  body : List Stmt
  scope : ScopeId

/-- What can be called. -/
inductive Callable where
  | function (closure : Closure)
  | native (native : Native)

/-- A value. -/
inductive Value where
  | nil
  | bool (value : Bool)
  | number (value : Float)
  | string (value : String)
  | callable (callable : Callable)

namespace Native

/-- The name of the global variable that holds a native function. -/
def name : Native → String
  | .clock => "clock"
  | .input => "input"
  | .number => "number"

/-- The number of arguments that a native function takes. -/
def arity : Native → Nat
  | .clock => 0
  | .input => 0
  | .number => 1

/-- All native functions. -/
def all : List Native := [.clock, .input, .number]

end Native

namespace Callable

/-- The number of arguments that a function takes. -/
def arity : Callable → Nat
  | .function closure => closure.params.length
  | .native primitive => primitive.arity

/-- Two functions are the same: declared by the same execution, or the same native function. -/
def equals : Callable → Callable → Bool
  | .function a, .function b => a.identity == b.identity
  | .native a, .native b => a == b
  | _, _ => false

/-- The text of a function. -/
def text : Callable → String
  | .function closure => "<fn " ++ closure.name.text ++ ">"
  | .native _ => "<native fn>"

end Callable

namespace Value

instance : Inhabited Value := ⟨.nil⟩

/-- The value of a literal. -/
def ofLiteral : Literal → Value
  | .nil => .nil
  | .bool value => .bool value
  | .number value => .number value
  | .string value => .string value

/-- Everything but `nil` and `false` counts as true. -/
def isTruthy : Value → Bool
  | .nil => false
  | .bool value => value
  | _ => true

/-- Values of different kinds are never equal.  A number that is no number is equal to itself, other
than in the comparison of floating-point numbers. -/
def equals : Value → Value → Bool
  | .nil, .nil => true
  | .bool a, .bool b => a == b
  | .number a, .number b => (a.isNaN && b.isNaN) || a == b
  | .string a, .string b => a == b
  | .callable a, .callable b => a.equals b
  | _, _ => false

/-- The text of a value, as it is printed. -/
def text : Value → String
  | .nil => Literal.text .nil
  | .bool value => Literal.text (.bool value)
  | .number value => Literal.text (.number value)
  | .string value => Literal.text (.string value)
  | .callable f => f.text

end Value

end Lox
