import Lox.Diagnostic
import Lox.Machine.Console
import Lox.Machine.Scope

/-!
# The machine

The state that a program runs on, and the failures that stop it.  `Eval` is the type of what runs:
it ends with a value, or it halts, and in both cases it leaves a machine behind.
-/

namespace Lox

/-- What a program can do that has no meaning. -/
inductive RuntimeFault where
  | operandNotNumber
  | operandsNotNumbers
  | operandsNotAddable
  | divisionByZero
  | undefinedVariable (name : String)
  | notCallable
  | arityMismatch (expected given : Nat)
  | callsTooDeep
  | breakOutsideLoop
  | returnOutsideFunction
  | unreadableClock (error : String)
  | unreadableInput (error : String)
  | notNumeric (text : String)
deriving DecidableEq, Repr

/-- What stops a program for good. -/
inductive Failure where
  | runtime (line : Nat) (fault : RuntimeFault)
  | output (error : String)
deriving DecidableEq, Repr

/-- What stops a run. -/
inductive Halt where
  | failure (failure : Failure)
  /-- The fuel ran out, or the input did for now. -/
  | suspended
deriving DecidableEq, Repr

namespace RuntimeFault

/-- The wording of a fault. -/
def message : RuntimeFault → String
  | .operandNotNumber => "Operand must be a number."
  | .operandsNotNumbers => "Operands must be numbers."
  | .operandsNotAddable => "Operands must be two numbers or strings."
  | .divisionByZero => "Can't divide by 0."
  | .undefinedVariable name => "Undefined variable '" ++ name ++ "'."
  | .notCallable => "Can only call functions."
  | .arityMismatch expected given => s!"Expected {expected} arguments but got {given}."
  | .callsTooDeep => "Stack overflow."
  | .breakOutsideLoop => "Can't use 'break' outside of a loop."
  | .returnOutsideFunction => "Can't return from top-level code."
  | .unreadableClock error => "System clock is before the Unix epoch: " ++ error ++ "."
  | .unreadableInput error => "Could not read input: " ++ error ++ "."
  | .notNumeric text => "Can't convert '" ++ text ++ "' to a number."

end RuntimeFault

namespace Failure

/-- The report of a failure. -/
def diagnostic : Failure → Diagnostic
  | .runtime line fault => .runtime line fault.message
  | .output error => .io error

end Failure

/-- The state that a program runs on. -/
structure Machine where
  scopes : Scopes
  /-- The scope that names are looked up in. -/
  current : ScopeId
  /-- The number of calls in progress. -/
  depth : Nat
  /-- The number of function declarations that were executed. -/
  declared : Nat
  source : Source
  sink : Sink
  clock : Clock

/-- A run on the machine that ends with a value or halts. -/
abbrev Eval := EStateM Halt Machine

namespace Machine

/-- The machine before any program has run on it. -/
def initial (source : Source) (sink : Sink) (clock : Clock) : Machine :=
  { scopes := .initial, current := Scopes.globalId, depth := 0, declared := 0, source, sink, clock }

/-- The most calls that can be in progress. -/
def maxDepth : Nat := 1024

end Machine

namespace Eval

/-- Stops the program with a fault on a line. -/
def fail {α : Type} (line : Nat) (fault : RuntimeFault) : Eval α :=
  throw (.failure (.runtime line fault))

/-- What a name means in the current scope. -/
def lookup (name : Lexeme) : Eval Value := fun machine =>
  match machine.scopes.get? machine.current name.text with
  | some value => .ok value machine
  | none => fail name.line (.undefinedVariable name.text) machine

/-- Gives a new value to what a name means in the current scope. -/
def assign (name : Lexeme) (value : Value) : Eval Unit := fun machine =>
  match machine.scopes.assign? machine.current name.text value with
  | some scopes => .ok () { machine with scopes }
  | none => fail name.line (.undefinedVariable name.text) machine

/-- Binds a name in the current scope. -/
def define (name : Lexeme) (value : Value) : Eval Unit :=
  modify fun machine =>
    { machine with scopes := machine.scopes.define machine.current name.text value }

/-- Makes a function value of a declaration, in the current scope. -/
def declare (name : Lexeme) (params : List Lexeme) (body : List Stmt) : Eval Value :=
  modifyGet fun machine =>
    let closure := { identity := machine.declared, name, params, body, scope := machine.current }
    (.callable (.function closure), { machine with declared := machine.declared + 1 })

/-- Opens a scope in another one. -/
def openScope (enclosing : ScopeId) (bindings : Bindings) : Eval ScopeId :=
  modifyGet fun machine =>
    (machine.scopes.nextId, { machine with scopes := machine.scopes.push enclosing bindings })

/-- Runs something with another current scope, and has the old one back however that ends. -/
def withCurrent {α : Type} (id : ScopeId) (body : Eval α) : Eval α := fun machine =>
  let outer := machine.current
  match body { machine with current := id } with
  | .ok value after => .ok value { after with current := outer }
  | .error halt after => .error halt { after with current := outer }

/-- Runs something in a new scope with the given bindings. -/
def withScope {α : Type} (enclosing : ScopeId) (bindings : Bindings) (body : Eval α) : Eval α := do
  withCurrent (← openScope enclosing bindings) body

/-- Runs a call, which counts as one in progress until it is over, however it ends.  Only so many
can be. -/
def withinCall {α : Type} (line : Nat) (body : Eval α) : Eval α := fun machine =>
  let depth := machine.depth
  if Machine.maxDepth ≤ depth then fail line .callsTooDeep machine
  else
    match body { machine with depth := depth + 1 } with
    | .ok value after => .ok value { after with depth := after.depth - 1 }
    | .error halt after => .error halt { after with depth := after.depth - 1 }

/-- Writes a text and a line end.  What is written of them before a failure stays. -/
def print (text : String) : Eval Unit := fun machine =>
  match machine.sink.writeLine text with
  | .ok _ sink => .ok () { machine with sink }
  | .error error sink => .error (.failure (.output error)) { machine with sink }

end Eval

end Lox
