import Lox.Machine.Evaluation
import Lox.Proofs.Machine.Clauses

/-!
# The rules of evaluation

What expressions, calls, statements and programs do, as rules and without fuel.  A judgment says how
something ends that starts on a machine: with a value or a signal, or stopped by a failure, and
which machine it leaves behind.  There is a rule for each way to end, and what has no end has no
derivation.

* `Evaluates`, `EvaluatesAll`: the value of an expression, and the values of arguments from left to
  right.
* `Invokes`: the value of a call, once the callee and the arguments are known.
* `Executes`, `ExecutesAll`: the signal that a statement ends with, and that of statements in a row.
* `Interprets`: a whole program, and what is reported about it.

Nothing here is taken from what runs a program: what is said of values, names and streams is said by
clauses.
-/

namespace Lox

/-- How something ends: with a value or stopped by a failure, and on which machine. -/
abbrev Final (α : Type) : Type := EStateM.Result Failure Machine α

namespace Final

variable {α : Type}

/-- A value, or a fault on a line. -/
def ofExcept (line : Nat) (machine : Machine) : Except RuntimeFault α → Final α
  | .ok value => .ok value machine
  | .error fault => .error (.runtime line fault) machine

/-- The same end, on the machine that is made of the one that was left behind. -/
def onMachine (change : Machine → Machine) : Final α → Final α
  | .ok value machine => .ok value (change machine)
  | .error failure machine => .error failure (change machine)

/-- The same end, in the given scope. -/
def inScope (scope : ScopeId) : Final α → Final α :=
  onMachine fun machine => { machine with current := scope }

/-- The same end, with the given number of calls in progress. -/
def atDepth (depth : Nat) : Final α → Final α :=
  onMachine fun machine => { machine with depth := depth }

end Final

/-! ## Operators and native functions -/

/-- What an operator before a value gives. -/
inductive UnaryOp.Yields : UnaryOp → Value → Except RuntimeFault Value → Prop where
  | negate {x : Float} : Yields .negate (.number x) (.ok (.number (-x)))
  | notNumber {value : Value} : ¬ value.IsNumber → Yields .negate value (.error .operandNotNumber)
  | notFalsy {value : Value} : value.Falsy → Yields .not value (.ok (.bool true))
  | notTruthy {value : Value} : ¬ value.Falsy → Yields .not value (.ok (.bool false))

/-- The operators on numbers that have a value for any two of them. -/
inductive BinaryOp.OnNumbers : BinaryOp → Float → Float → Value → Prop where
  | subtract {x y : Float} : OnNumbers .subtract x y (.number (x - y))
  | multiply {x y : Float} : OnNumbers .multiply x y (.number (x * y))
  | greater {x y : Float} : OnNumbers .greater x y (.bool (x > y))
  | greaterEqual {x y : Float} : OnNumbers .greaterEqual x y (.bool (x ≥ y))
  | less {x y : Float} : OnNumbers .less x y (.bool (x < y))
  | lessEqual {x y : Float} : OnNumbers .lessEqual x y (.bool (x ≤ y))

/-- What an operator between two values gives. -/
inductive BinaryOp.Yields : BinaryOp → Value → Value → Except RuntimeFault Value → Prop where
  | numbers {op : BinaryOp} {x y : Float} {value : Value} : op.OnNumbers x y value →
    Yields op (.number x) (.number y) (.ok value)
  | divide {x y : Float} : (y == 0) = false →
    Yields .divide (.number x) (.number y) (.ok (.number (x / y)))
  | divisionByZero {x y : Float} : (y == 0) = true →
    Yields .divide (.number x) (.number y) (.error .divisionByZero)
  | notNumbers {op : BinaryOp} {left right : Value} : op ∉ [.add, .equal, .notEqual] →
    ¬ (left.IsNumber ∧ right.IsNumber) → Yields op left right (.error .operandsNotNumbers)
  | add {x y : Float} : Yields .add (.number x) (.number y) (.ok (.number (x + y)))
  | join {x y : String} : Yields .add (.string x) (.string y) (.ok (.string (x ++ y)))
  | notAddable {left right : Value} : ¬ (left.IsNumber ∧ right.IsNumber) →
    ¬ (left.IsString ∧ right.IsString) → Yields .add left right (.error .operandsNotAddable)
  | equal {left right : Value} : left.Equal right → Yields .equal left right (.ok (.bool true))
  | unequal {left right : Value} : ¬ left.Equal right → Yields .equal left right (.ok (.bool false))
  | notEqual {left right : Value} : ¬ left.Equal right →
    Yields .notEqual left right (.ok (.bool true))
  | notUnequal {left right : Value} : left.Equal right →
    Yields .notEqual left right (.ok (.bool false))

/-- A left operand that the value of a logical operation is not known by: the right one is
needed. -/
inductive LogicalOp.Needs : LogicalOp → Value → Prop where
  | and {left : Value} : ¬ left.Falsy → Needs .and left
  | or {left : Value} : left.Falsy → Needs .or left

/-- What a native function gives, and the machine after it. -/
inductive Native.Yields (machine : Machine) :
    Native → List Value → Except RuntimeFault Value → Machine → Prop where
  | clock {time : Float} : machine.clock.Tells (.ok time) →
    Yields machine .clock [] (.ok (.number time))
    { machine with clock := { machine.clock with readings := machine.clock.readings + 1 } }
  | clockFails {error : String} : machine.clock.Tells (.error error) →
    Yields machine .clock [] (.error (.unreadableClock error))
      { machine with clock := { machine.clock with readings := machine.clock.readings + 1 } }
  | line {line content : String} {source : Source} : machine.source.Reads (.line line) source →
    HasContent line.toList content.toList →
    Yields machine .input [] (.ok (.string content)) { machine with source }
  | ended {source : Source} : machine.source.Reads .ended source →
    Yields machine .input [] (.ok .nil) { machine with source }
  | inputFails {error : String} {source : Source} : machine.source.Reads (.failed error) source →
    Yields machine .input [] (.error (.unreadableInput error)) { machine with source }
  | number {x : Float} : Yields machine .number [.number x] (.ok (.number x)) machine
  | numeral {text : String} {x : Float} : Numeral.Denotes text x →
    Yields machine .number [.string text] (.ok (.number x)) machine
  | noNumeral {text : String} : (∀ x, ¬ Numeral.Denotes text x) →
    Yields machine .number [.string text] (.error (.notNumeric text)) machine
  | notNumeric {value : Value} {text : String} : ¬ value.IsNumber → ¬ value.IsString →
    value.Displays text → Yields machine .number [value] (.error (.notNumeric text)) machine

/-! ## Expressions and statements -/

mutual

/-- The expression, evaluated on the machine, ends so. -/
inductive Evaluates : Machine → Expr → Final Value → Prop where
  | literal {s literal value} : literal.Denotes value → Evaluates s (.literal literal) (.ok value s)
  | grouping {s inner final} : Evaluates s inner final → Evaluates s (.grouping inner) final
  | variable {s name value target} : s.Means name.text value target →
    Evaluates s (.variable name) (.ok value s)
  | undefined {s name} : (∀ value target, ¬ s.Means name.text value target) →
    Evaluates s (.variable name) (.error (.runtime name.line (.undefinedVariable name.text)) s)
  | assign {s s' s'' name operand value old target} : Evaluates s operand (.ok value s') →
    s'.Means name.text old target → s'.Defines target name.text value s'' →
    Evaluates s (.assign name operand) (.ok value s'')
  | assignUndefined {s s' name operand value} : Evaluates s operand (.ok value s') →
    (∀ old target, ¬ s'.Means name.text old target) →
    Evaluates s (.assign name operand)
      (.error (.runtime name.line (.undefinedVariable name.text)) s')
  | assignFails {s s' name operand failure} : Evaluates s operand (.error failure s') →
    Evaluates s (.assign name operand) (.error failure s')
  | unary {s s' op mark operand value result} : Evaluates s operand (.ok value s') →
    op.Yields value result → Evaluates s (.unary op mark operand) (.ofExcept mark.line s' result)
  | unaryFails {s s' op mark operand failure} : Evaluates s operand (.error failure s') →
    Evaluates s (.unary op mark operand) (.error failure s')
  /-- Both operands are evaluated, the left one first, before the operator is applied. -/
  | binary {s s' s'' left right op mark first second result} : Evaluates s left (.ok first s') →
    Evaluates s' right (.ok second s'') → op.Yields first second result →
    Evaluates s (.operation left (.binary op) mark right) (.ofExcept mark.line s'' result)
  | binaryRightFails {s s' s'' left right op mark first failure} : Evaluates s left (.ok first s') →
    Evaluates s' right (.error failure s'') →
    Evaluates s (.operation left (.binary op) mark right) (.error failure s'')
  /-- The right operand of a logical operator is evaluated only if it is needed. -/
  | logicalNeeds {s s' left right op mark first final} : Evaluates s left (.ok first s') →
    op.Needs first →
    Evaluates s' right final → Evaluates s (.operation left (.logical op) mark right) final
  | logicalSettled {s s' left right op mark first} : Evaluates s left (.ok first s') →
    ¬ op.Needs first → Evaluates s (.operation left (.logical op) mark right) (.ok first s')
  | leftFails {s s' left right op mark failure} : Evaluates s left (.error failure s') →
    Evaluates s (.operation left op mark right) (.error failure s')
  | calleeFails {s s' callee paren arguments failure} : Evaluates s callee (.error failure s') →
    Evaluates s (.call callee paren arguments) (.error failure s')
  /-- What cannot be called is found out before the arguments are evaluated. -/
  | notCallable {s s' callee paren arguments value} : Evaluates s callee (.ok value s') →
    (∀ callable, value ≠ .callable callable) →
    Evaluates s (.call callee paren arguments) (.error (.runtime paren.line .notCallable) s')
  | argumentsFail {s s' s'' callee paren arguments callable failure} :
    Evaluates s callee (.ok (.callable callable) s') →
    EvaluatesAll s' arguments (.error failure s'') →
    Evaluates s (.call callee paren arguments) (.error failure s'')
  /-- The number of arguments is checked after all of them are evaluated. -/
  | arityMismatch {s s' s'' callee paren arguments callable values count} :
    Evaluates s callee (.ok (.callable callable) s') → EvaluatesAll s' arguments (.ok values s'') →
    callable.Takes count → values.length ≠ count →
    Evaluates s (.call callee paren arguments)
      (.error (.runtime paren.line (.arityMismatch count values.length)) s'')
  | tooDeep {s s' s'' callee paren arguments callable values} :
    Evaluates s callee (.ok (.callable callable) s') → EvaluatesAll s' arguments (.ok values s'') →
    callable.Takes values.length → 1024 ≤ s''.depth →
    Evaluates s (.call callee paren arguments) (.error (.runtime paren.line .callsTooDeep) s'')
  | call {s s' s'' callee paren arguments callable values final} :
    Evaluates s callee (.ok (.callable callable) s') → EvaluatesAll s' arguments (.ok values s'') →
    callable.Takes values.length → s''.depth < 1024 →
    Invokes { s'' with depth := s''.depth + 1 } callable paren.line values final →
    Evaluates s (.call callee paren arguments) (final.atDepth s''.depth)

/-- The expressions, evaluated from left to right, end so. -/
inductive EvaluatesAll : Machine → List Expr → Final (List Value) → Prop where
  | nil {s} : EvaluatesAll s [] (.ok [] s)
  | cons {s s' s'' expression rest value values} : Evaluates s expression (.ok value s') →
    EvaluatesAll s' rest (.ok values s'') →
    EvaluatesAll s (expression :: rest) (.ok (value :: values) s'')
  | headFails {s s' expression rest failure} : Evaluates s expression (.error failure s') →
    EvaluatesAll s (expression :: rest) (.error failure s')
  | tailFails {s s' s'' expression rest value failure} : Evaluates s expression (.ok value s') →
    EvaluatesAll s' rest (.error failure s'') →
    EvaluatesAll s (expression :: rest) (.error failure s'')

/-- The call, of a function with as many arguments as it takes, ends so.  Faults are on the given
line. -/
inductive Invokes : Machine → Callable → Nat → List Value → Final Value → Prop where
  | native {s s' primitive line arguments result} : primitive.Yields s arguments result s' →
    Invokes s (.native primitive) line arguments (.ofExcept line s' result)
  /-- The body of a declared function runs in a new scope in the scope of the declaration, whoever
  calls it. -/
  | returns {s s' closure line arguments bindings keyword value} :
    Bindings.SetsAll closure.params arguments [] bindings →
    ExecutesAll (s.opening closure.scope bindings) closure.body (.ok (.returned keyword value) s') →
    Invokes s (.function closure) line arguments (.ok value { s' with current := s.current })
  | completes {s s' closure line arguments bindings signal} :
    Bindings.SetsAll closure.params arguments [] bindings →
    ExecutesAll (s.opening closure.scope bindings) closure.body (.ok signal s') →
    (∀ keyword value, signal ≠ .returned keyword value) →
    Invokes s (.function closure) line arguments (.ok .nil { s' with current := s.current })
  | fails {s s' closure line arguments bindings failure} :
    Bindings.SetsAll closure.params arguments [] bindings →
    ExecutesAll (s.opening closure.scope bindings) closure.body (.error failure s') →
    Invokes s (.function closure) line arguments (.error failure { s' with current := s.current })

/-- The statement, executed on the machine, ends so. -/
inductive Executes : Machine → Stmt → Final Signal → Prop where
  | expression {s s' operand value} : Evaluates s operand (.ok value s') →
    Executes s (.expression operand) (.ok .completed s')
  | expressionFails {s s' operand failure} : Evaluates s operand (.error failure s') →
    Executes s (.expression operand) (.error failure s')
  /-- A text is written before its line end, and stays if that is not taken. -/
  | print {s s' operand value text written sink} : Evaluates s operand (.ok value s') →
    value.Displays text → s'.sink.Takes text written → written.Takes "\n" sink →
    Executes s (.print operand) (.ok .completed { s' with sink })
  | unwritable {s s' operand value text error} : Evaluates s operand (.ok value s') →
    value.Displays text → s'.sink.Refuses text error →
    Executes s (.print operand) (.error (.output error) s')
  | unended {s s' operand value text sink error} : Evaluates s operand (.ok value s') →
    value.Displays text → s'.sink.Takes text sink → sink.Refuses "\n" error →
    Executes s (.print operand) (.error (.output error) { s' with sink })
  | printFails {s s' operand failure} : Evaluates s operand (.error failure s') →
    Executes s (.print operand) (.error failure s')
  | var {s s' s'' name initializer value} : Evaluates s initializer (.ok value s') →
    s'.Defines s'.current name.text value s'' →
    Executes s (.var name (some initializer)) (.ok .completed s'')
  | varBare {s s' name} : s.Defines s.current name.text .nil s' →
    Executes s (.var name none) (.ok .completed s')
  | varFails {s s' name initializer failure} : Evaluates s initializer (.error failure s') →
    Executes s (.var name (some initializer)) (.error failure s')
  | function {s s' name params body} :
    { s with declared := s.declared + 1 }.Defines s.current name.text
      (.callable (.function (s.closure name params body))) s' →
    Executes s (.function name params body) (.ok .completed s')
  /-- A block runs in a new scope, and the scope around it is current again however it ends. -/
  | block {s statements final} : ExecutesAll (s.opening s.current []) statements final →
    Executes s (.block statements) (final.inScope s.current)
  | ifTrue {s s' condition thenBranch elseBranch value final} :
    Evaluates s condition (.ok value s') →
    ¬ value.Falsy → Executes s' thenBranch final →
    Executes s (.if condition thenBranch elseBranch) final
  | ifFalse {s s' condition thenBranch elseBranch value final} :
    Evaluates s condition (.ok value s') →
    value.Falsy → Executes s' elseBranch final →
    Executes s (.if condition thenBranch (some elseBranch)) final
  | ifNone {s s' condition thenBranch value} : Evaluates s condition (.ok value s') → value.Falsy →
    Executes s (.if condition thenBranch none) (.ok .completed s')
  | ifFails {s s' condition thenBranch elseBranch failure} :
    Evaluates s condition (.error failure s') →
    Executes s (.if condition thenBranch elseBranch) (.error failure s')
  | whileDone {s s' condition body value} : Evaluates s condition (.ok value s') → value.Falsy →
    Executes s (.while condition body) (.ok .completed s')
  | whileAgain {s s' s'' condition body value final} : Evaluates s condition (.ok value s') →
    ¬ value.Falsy →
    Executes s' body (.ok .completed s'') → Executes s'' (.while condition body) final →
    Executes s (.while condition body) final
  /-- A loop takes a `break` out of its body, and no other signal. -/
  | whileBroke {s s' s'' condition body value keyword} : Evaluates s condition (.ok value s') →
    ¬ value.Falsy →
    Executes s' body (.ok (.broke keyword) s'') →
    Executes s (.while condition body) (.ok .completed s'')
  | whileReturned {s s' s'' condition body value keyword result} :
    Evaluates s condition (.ok value s') →
    ¬ value.Falsy → Executes s' body (.ok (.returned keyword result) s'') →
    Executes s (.while condition body) (.ok (.returned keyword result) s'')
  | whileFails {s s' s'' condition body value failure} : Evaluates s condition (.ok value s') →
    ¬ value.Falsy →
    Executes s' body (.error failure s'') → Executes s (.while condition body) (.error failure s'')
  | conditionFails {s s' condition body failure} : Evaluates s condition (.error failure s') →
    Executes s (.while condition body) (.error failure s')
  | break {s keyword} : Executes s (.break keyword) (.ok (.broke keyword) s)
  | return {s s' keyword operand value} : Evaluates s operand (.ok value s') →
    Executes s (.return keyword (some operand)) (.ok (.returned keyword value) s')
  | returnBare {s keyword} : Executes s (.return keyword none) (.ok (.returned keyword .nil) s)
  | returnFails {s s' keyword operand failure} : Evaluates s operand (.error failure s') →
    Executes s (.return keyword (some operand)) (.error failure s')

/-- The statements, executed in order up to the first that does not complete, end so. -/
inductive ExecutesAll : Machine → List Stmt → Final Signal → Prop where
  | nil {s} : ExecutesAll s [] (.ok .completed s)
  | cons {s s' statement rest final} : Executes s statement (.ok .completed s') →
    ExecutesAll s' rest final → ExecutesAll s (statement :: rest) final
  | leaves {s s' statement rest signal} : Executes s statement (.ok signal s') →
    signal ≠ .completed → ExecutesAll s (statement :: rest) (.ok signal s')
  | fails {s s' statement rest failure} : Executes s statement (.error failure s') →
    ExecutesAll s (statement :: rest) (.error failure s')

end

/-! ## Programs -/

/-- The program, run on the machine, ends with the report, if there is one, and with the second
machine.  A signal that nothing has taken is a failure, and nothing is executed after one. -/
inductive Interprets : Machine → List Stmt → Option Diagnostic → Machine → Prop where
  | nil {s} : Interprets s [] none s
  | cons {s s' s'' statement rest report} : Executes s statement (.ok .completed s') →
    Interprets s' rest report s'' → Interprets s (statement :: rest) report s''
  | broke {s s' statement rest keyword} : Executes s statement (.ok (.broke keyword) s') →
    Interprets s (statement :: rest)
      (some (.runtime keyword.line "Can't use 'break' outside of a loop.")) s'
  | returned {s s' statement rest keyword value} :
    Executes s statement (.ok (.returned keyword value) s') →
    Interprets s (statement :: rest)
      (some (.runtime keyword.line "Can't return from top-level code.")) s'
  | fails {s s' statement rest failure report} : Executes s statement (.error failure s') →
    failure.Reports report → Interprets s (statement :: rest) (some report) s'

end Lox
