import Lox.Machine.State
import Lox.Proofs.Number.Reading
import Lox.Proofs.Number.Shortest

/-!
# Clauses for values, names and streams

What the rules of evaluation rest on, each by clauses of its own and apart from how it is computed:
which values count as false, which are equal, how they are displayed, what names mean and how they
are bound, what is read and written, and how failures read.  Operations on floating-point numbers
are given.

* `Value.Falsy`, `Value.Equal`, `Value.Displays`: values.
* `Scopes.Means`, `Scopes.Defines`, `Bindings.SetsAll`: names.
* `Source.Reads`, `Sink.Takes`, `Sink.Refuses`, `Clock.Tells`: what a machine is connected to.
* `Failure.Reports`: the report of a failure.
-/

namespace Lox

/-! ## Values -/

/-- The value of a literal. -/
inductive Literal.Denotes : Literal → Value → Prop where
  | nil : Denotes .nil .nil
  | bool {value : Bool} : Denotes (.bool value) (.bool value)
  | number {x : Float} : Denotes (.number x) (.number x)
  | string {text : String} : Denotes (.string text) (.string text)

namespace Value

/-- The value is a number. -/
def IsNumber (value : Value) : Prop := ∃ x, value = .number x

/-- The value is a string. -/
def IsString (value : Value) : Prop := ∃ text, value = .string text

/-- Nothing but `nil` and `false` counts as false. -/
inductive Falsy : Value → Prop where
  | nil : Falsy .nil
  | false : Falsy (.bool false)

/-- The values are equal.  Values of different kinds never are, and functions are equal only if the
same execution of a declaration made them. -/
inductive Equal : Value → Value → Prop where
  | nil : Equal .nil .nil
  | bool {value : Bool} : Equal (.bool value) (.bool value)
  | number {x y : Float} : x == y → Equal (.number x) (.number y)
  | nan {x y : Float} : x.isNaN → y.isNaN → Equal (.number x) (.number y)
  | string {text : String} : Equal (.string text) (.string text)
  | function {f g : Closure} : f.identity = g.identity →
    Equal (.callable (.function f)) (.callable (.function g))
  | native {primitive : Native} :
    Equal (.callable (.native primitive)) (.callable (.native primitive))

/-- The value is displayed so. -/
inductive Displays : Value → String → Prop where
  | nil : Displays .nil "nil"
  | true : Displays (.bool true) "true"
  | false : Displays (.bool false) "false"
  | number {x : Float} {text : String} : Numeral.Shows (Binary64.ofFloat x) text →
    Displays (.number x) text
  | string {text : String} : Displays (.string text) text
  | function {closure : Closure} :
    Displays (.callable (.function closure)) ("<fn " ++ closure.name.text ++ ">")
  | native {primitive : Native} : Displays (.callable (.native primitive)) "<native fn>"

end Value

/-- The number of arguments that a function takes. -/
inductive Callable.Takes : Callable → Nat → Prop where
  | function {closure : Closure} : Takes (.function closure) closure.params.length
  | clock : Takes (.native .clock) 0
  | input : Takes (.native .input) 0
  | number : Takes (.native .number) 1

/-! ## Names -/

namespace Bindings

/-- The name is bound to the value. -/
inductive Maps (name : String) (value : Value) : Bindings → Prop where
  | here {rest : Bindings} : Maps name value ((name, value) :: rest)
  | later {other : String} {old : Value} {rest : Bindings} : other ≠ name → Maps name value rest →
    Maps name value ((other, old) :: rest)

/-- The second bindings are the first ones with the name bound to the value. -/
inductive Sets (name : String) (value : Value) : Bindings → Bindings → Prop where
  | new : Sets name value [] [(name, value)]
  | again {old : Value} {rest : Bindings} :
    Sets name value ((name, old) :: rest) ((name, value) :: rest)
  | later {other : String} {old : Value} {rest after : Bindings} : other ≠ name →
    Sets name value rest after → Sets name value ((other, old) :: rest) ((other, old) :: after)

/-- The second bindings are the first ones with each parameter bound to its argument, in order. -/
inductive SetsAll : List Lexeme → List Value → Bindings → Bindings → Prop where
  | nil {bindings : Bindings} : SetsAll [] [] bindings bindings
  | cons {param : Lexeme} {params : List Lexeme} {argument : Value} {arguments : List Value}
    {before middle after : Bindings} : Sets param.text argument before middle →
    SetsAll params arguments middle after →
    SetsAll (param :: params) (argument :: arguments) before after

end Bindings

namespace Scopes

/-- From the first scope outwards, the second is the nearest that binds the name, and it binds the
name to the value. -/
inductive Means (scopes : Scopes) (name : String) (value : Value) : ScopeId → ScopeId → Prop where
  | here {id : ScopeId} {scope : Scope} : scopes.cells[id]? = some scope →
    scope.bindings.Maps name value → Means scopes name value id id
  | outwards {id outer target : ScopeId} {scope : Scope} : scopes.cells[id]? = some scope →
    (∀ other, ¬ scope.bindings.Maps name other) → scope.enclosing = some outer →
    Means scopes name value outer target → Means scopes name value id target

/-- The second store is the first one with the name bound to the value in the scope. -/
inductive Defines (scopes : Scopes) (id : ScopeId) (name : String) (value : Value) :
    Scopes → Prop where
  | intro {scope : Scope} {bindings : Bindings} : scopes.cells[id]? = some scope →
    scope.bindings.Sets name value bindings →
    Defines scopes id name value ⟨scopes.cells.setIfInBounds id { scope with bindings }⟩

end Scopes

namespace Machine

/-- The name means the value, in the scope that is told. -/
def Means (machine : Machine) (name : String) (value : Value) (target : ScopeId) : Prop :=
  machine.scopes.Means name value machine.current target

/-- The second machine is the first one with the name bound to the value in the scope. -/
def Defines (machine : Machine) (id : ScopeId) (name : String) (value : Value) (after : Machine) :
    Prop :=
  ∃ scopes, machine.scopes.Defines id name value scopes ∧ after = { machine with scopes }

/-- The machine in a new scope. -/
def opening (machine : Machine) (enclosing : ScopeId) (bindings : Bindings) : Machine :=
  { machine with
    scopes := ⟨machine.scopes.cells.push ⟨some enclosing, bindings⟩⟩, current :=
      machine.scopes.cells.size }

/-- The closure of a declaration that is executed on the machine. -/
def closure (machine : Machine) (name : Lexeme) (params : List Lexeme) (body : List Stmt) :
    Closure :=
  { identity := machine.declared, name, params, body, scope := machine.current }

end Machine

/-! ## Input, output and time -/

/-- What reading a line of the source comes to, and what is left.  If more input may come, it comes
to nothing. -/
inductive Source.Reads : Source → Reading → Source → Prop where
  | line {text : String} {rest : List Line} {ending : Ending} :
    Reads ⟨.text text :: rest, ending⟩ (.line text) ⟨rest, ending⟩
  | malformed {rest : List Line} {ending : Ending} :
    Reads ⟨.malformed :: rest, ending⟩ (.failed "stream did not contain valid UTF-8") ⟨rest, ending⟩
  | ended : Reads ⟨[], .closed⟩ .ended ⟨[], .closed⟩
  | failing {error : String} : Reads ⟨[], .failing error⟩ (.failed error) ⟨[], .failing error⟩

/-- The content of a line of input: the line without the line feed and the carriage return at its
end. -/
inductive Native.HasContent : (line content : List Char) → Prop where
  | full {content : List Char} : HasContent (content ++ ['\r', '\n']) content
  | feed {content : List Char} : content.getLast? ≠ some '\r' →
    HasContent (content ++ ['\n']) content
  | carriage {content : List Char} : HasContent (content ++ ['\r']) content
  | bare {content : List Char} : content.getLast? ≠ some '\r' → content.getLast? ≠ some '\n' →
    HasContent content content

/-- The sink takes the text, and the second sink is what it is then. -/
inductive Sink.Takes : Sink → String → Sink → Prop where
  | unlimited {before text : String} : Takes ⟨before, none⟩ text ⟨before ++ text, none⟩
  | limited {before text error : String} {lines : Nat} : 0 < lines ∨ text = "" →
    Takes ⟨before, some ⟨lines, error⟩⟩ text
      ⟨before ++ text, some ⟨lines - text.toList.count '\n', error⟩⟩

/-- The sink does not take the text, for the reason that is told. -/
inductive Sink.Refuses : Sink → String → String → Prop where
  | full {before text error : String} : text ≠ "" → Refuses ⟨before, some ⟨0, error⟩⟩ text error

/-- What the clock tells, the time or why there is none. -/
inductive Clock.Tells (clock : Clock) : Except String Float → Prop where
  | time : clock.early clock.readings = none → Tells clock (.ok (clock.time clock.readings))
  | early {error : String} : clock.early clock.readings = some error → Tells clock (.error error)

/-! ## Failures -/

/-- The message of a fault. -/
inductive RuntimeFault.Says : RuntimeFault → String → Prop where
  | operandNotNumber : Says .operandNotNumber "Operand must be a number."
  | operandsNotNumbers : Says .operandsNotNumbers "Operands must be numbers."
  | operandsNotAddable : Says .operandsNotAddable "Operands must be two numbers or strings."
  | divisionByZero : Says .divisionByZero "Can't divide by 0."
  | undefinedVariable {name : String} :
    Says (.undefinedVariable name) ("Undefined variable '" ++ name ++ "'.")
  | notCallable : Says .notCallable "Can only call functions."
  | arityMismatch {expected given : Nat} : Says (.arityMismatch expected given)
    ("Expected " ++ toString expected ++ " arguments but got " ++ toString given ++ ".")
  | callsTooDeep : Says .callsTooDeep "Stack overflow."
  | breakOutsideLoop : Says .breakOutsideLoop "Can't use 'break' outside of a loop."
  | returnOutsideFunction : Says .returnOutsideFunction "Can't return from top-level code."
  | unreadableClock {error : String} :
    Says (.unreadableClock error) ("System clock is before the Unix epoch: " ++ error ++ ".")
  | unreadableInput {error : String} :
    Says (.unreadableInput error) ("Could not read input: " ++ error ++ ".")
  | notNumeric {text : String} :
    Says (.notNumeric text) ("Can't convert '" ++ text ++ "' to a number.")

/-- The report of a failure. -/
inductive Failure.Reports : Failure → Diagnostic → Prop where
  | runtime {line : Nat} {fault : RuntimeFault} {message : String} : fault.Says message →
    Reports (.runtime line fault) (.runtime line message)
  | output {error : String} : Reports (.output error) (.io error)

end Lox
