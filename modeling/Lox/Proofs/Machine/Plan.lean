import Lox.Machine.Evaluation

/-!
# Plans

The functions of the evaluator call one another, each with one unit of fuel less.  This module says
what each of them does without following the calls.  A *task* is a call of one of the functions, and
its *plan* is a tree: the task performs acts on the machine, starts further tasks, and goes on with
what they give.

* `Task.run_succ`: a task with fuel `fuel + 1` follows its plan, and the tasks that it starts have
  fuel `fuel`.
* `interpret_eq_follow`: a program follows the plan of its statements.

A property of all runs is then a property of acts, of the ways to start a task, and of plans.
-/

namespace Lox

open Eval

namespace Eval

variable {α β : Type} {first : Eval α} {next : α → Eval β} {machine middle : Machine}

theorem bind_of_ok {value : α} (ran : first machine = .ok value middle) :
    (first >>= next) machine = next value middle := by
  change EStateM.bind first next machine = _
  rw [EStateM.bind, ran]

theorem bind_of_error {halt : Halt} (ran : first machine = .error halt middle) :
    (first >>= next) machine = .error halt middle := by
  change EStateM.bind first next machine = _
  rw [EStateM.bind, ran]

end Eval

/-- A call of one of the functions of the evaluator. -/
inductive Task where
  | evaluate (expression : Expr)
  | evaluateAll (expressions : List Expr)
  | evaluateOption (expression : Option Expr)
  | invoke (callable : Callable) (line : Nat) (arguments : List Value)
  | execute (statement : Stmt)
  | executeAll (statements : List Stmt)
  | loop (condition : Expr) (body : Stmt)

/-- What a task gives. -/
abbrev Task.Result : Task → Type
  | .evaluate _ | .evaluateOption _ | .invoke _ _ _ => Value
  | .evaluateAll _ => List Value
  | .execute _ | .executeAll _ | .loop _ _ => Signal

def Task.run (fuel : Nat) : (task : Task) → Eval task.Result
  | .evaluate expression => Lox.evaluate fuel expression
  | .evaluateAll expressions => Lox.evaluateAll fuel expressions
  | .evaluateOption expression => Lox.evaluateOption fuel expression
  | .invoke callable line arguments => Lox.invoke fuel callable line arguments
  | .execute statement => Lox.execute fuel statement
  | .executeAll statements => Lox.executeAll fuel statements
  | .loop condition body => Lox.loop fuel condition body

/-- What a task does on the machine itself, by what it gives. -/
inductive Act : Type → Type where
  | lookup (name : Lexeme) : Act Value
  | assign (name : Lexeme) (value : Value) : Act Unit
  | define (name : Lexeme) (value : Value) : Act Unit
  | declare (name : Lexeme) (params : List Lexeme) (body : List Stmt) : Act Value
  | unary (op : UnaryOp) (line : Nat) (operand : Value) : Act Value
  | binary (op : BinaryOp) (line : Nat) (left right : Value) : Act Value
  | callee (line : Nat) (value : Value) : Act Callable
  | arity (line : Nat) (callable : Callable) (arguments : List Value) : Act Unit
  | native (native : Native) (line : Nat) (arguments : List Value) : Act Value
  | print (text : String) : Act Unit
  | fail (line : Nat) (fault : RuntimeFault) : Act Unit

def Act.perform {α : Type} : Act α → Eval α
  | .lookup name => Eval.lookup name
  | .assign name value => Eval.assign name value
  | .define name value => Eval.define name value
  | .declare name params body => Eval.declare name params body
  | .unary op line operand => applyUnary op line operand
  | .binary op line left right => applyBinary op line left right
  | .callee line value => asCallable line value
  | .arity line callable arguments => checkArity line callable arguments
  | .native primitive line arguments => primitive.invoke line arguments
  | .print text => Eval.print text
  | .fail line fault => Eval.fail line fault

/-! ## Starting a task -/

/-- The machine in a new scope. -/
def Machine.inScope (machine : Machine) (enclosing : ScopeId) (bindings : Bindings) : Machine :=
  { machine with scopes := machine.scopes.push enclosing bindings, current :=
    machine.scopes.nextId }

/-- How a task is started: on the machine as it is, in a new scope, or as a call. -/
inductive Entry where
  | plain
  | block
  | frame (enclosing : ScopeId) (bindings : Bindings)
  | call (line : Nat)

namespace Entry

/-- The machine that the task is started on. -/
def enter (machine : Machine) : Entry → Except Halt Machine
  | .plain => .ok machine
  | .block => .ok (machine.inScope machine.current [])
  | .frame enclosing bindings => .ok (machine.inScope enclosing bindings)
  | .call line =>
    if Machine.maxDepth ≤ machine.depth then .error (.failure (.runtime line .callsTooDeep))
    else .ok { machine with depth := machine.depth + 1 }

/-- The machine after the task, where `outer` is the one before. -/
def leave (outer after : Machine) : Entry → Machine
  | .plain => after
  | .block | .frame _ _ => { after with current := outer.current }
  | .call _ => { after with depth := after.depth - 1 }

def around {α : Type} (entry : Entry) (body : Eval α) : Eval α := fun machine =>
  match entry.enter machine with
  | .error halt => .error halt machine
  | .ok inner =>
    match body inner with
    | .ok value after => .ok value (entry.leave machine after)
    | .error halt after => .error halt (entry.leave machine after)

variable {α : Type} (body : Eval α)

@[simp] theorem around_plain : plain.around body = body := by
  funext machine
  simp only [around, enter, leave]
  cases body machine <;> rfl

theorem around_block : block.around body = (do withScope (← get).current [] body) := rfl

theorem around_frame (enclosing : ScopeId) (bindings : Bindings) :
    (frame enclosing bindings).around body = withScope enclosing bindings body := rfl

theorem around_call (line : Nat) : (call line).around body = withinCall line body := by
  funext machine
  by_cases full : Machine.maxDepth ≤ machine.depth
  · simp only [around, enter, withinCall, full, ↓reduceIte]
    rfl
  · simp only [around, enter, withinCall, full, ↓reduceIte]
    rfl

variable {body} {entry : Entry} {machine inner after : Machine} {halt : Halt}

theorem around_of_refused (refused : entry.enter machine = .error halt) :
    entry.around body machine = .error halt machine := by
  simp only [around, refused]

theorem around_of_ok {value : α} (entered : entry.enter machine = .ok inner)
    (ran : body inner = .ok value after) :
    entry.around body machine = .ok value (entry.leave machine after) := by
  simp only [around, entered, ran]

theorem around_of_error (entered : entry.enter machine = .ok inner)
    (ran : body inner = .error halt after) :
    entry.around body machine = .error halt (entry.leave machine after) := by
  simp only [around, entered, ran]

end Entry

/-! ## Plans -/

/-- What a task does, without what happens in the tasks that it starts. -/
inductive Plan (α : Type) : Type 1 where
  | done (value : α)
  | act {β : Type} (action : Act β) (next : β → Plan α)
  | start (entry : Entry) (task : Task) (next : task.Result → Plan α)

namespace Plan

variable {α β : Type}

def bind (plan : Plan α) (f : α → Plan β) : Plan β :=
  match plan with
  | .done value => f value
  | .act action next => .act action fun value => (next value).bind f
  | .start entry task next => .start entry task fun result => (next result).bind f

instance : Monad Plan where
  pure := .done
  bind := bind

/-- Does what is planned, where `run` tells how tasks run. -/
def follow (run : (task : Task) → Eval task.Result) : Plan α → Eval α
  | .done value => return value
  | .act action next => do (next (← action.perform)).follow run
  | .start entry task next => do (next (← entry.around (run task))).follow run

def perform (action : Act α) : Plan α := .act action .done

def valueOf (expression : Expr) : Plan Value := .start .plain (.evaluate expression) .done

def valueOfOption (expression : Option Expr) : Plan Value :=
  .start .plain (.evaluateOption expression) .done

def valuesOf (expressions : List Expr) : Plan (List Value) :=
  .start .plain (.evaluateAll expressions) .done

def signalOf (statement : Stmt) : Plan Signal := .start .plain (.execute statement) .done

section Follow

variable (run : (task : Task) → Eval task.Result)

@[simp] theorem follow_done (value : α) : (done value).follow run = pure value := rfl

@[simp] theorem follow_pure (value : α) : (pure value : Plan α).follow run = pure value := rfl

@[simp] theorem follow_bind (plan : Plan α) (f : α → Plan β) :
    (plan >>= f).follow run = plan.follow run >>= fun value => (f value).follow run := by
  induction plan with
  | done value => rfl
  | act action next ih =>
    change (action.perform >>= fun value => (next value >>= f).follow run) = _
    simp only [ih, follow, bind_assoc]
  | start entry task next ih =>
    change (entry.around (run task) >>= fun result => (next result >>= f).follow run) = _
    simp only [ih, follow, bind_assoc]

@[simp] theorem follow_perform (action : Act α) : (perform action).follow run = action.perform :=
  bind_pure _

@[simp] theorem follow_start (entry : Entry) (task : Task) (next : task.Result → Plan α) :
    (start entry task next).follow run = entry.around (run task) >>= fun result =>
    (next result).follow run := rfl

@[simp] theorem follow_ite (condition : Prop) [Decidable condition] (plan other : Plan α) :
    (if condition then plan else other).follow run = if condition then plan.follow run
      else other.follow run := by
  split <;> rfl

end Follow

end Plan

open Plan

def Expr.plan : Expr → Plan Value
  | .literal value => return .ofLiteral value
  | .variable name => perform (.lookup name)
  | .grouping inner => valueOf inner
  | .assign name value => do
    let value ← valueOf value
    perform (.assign name value)
    return value
  | .unary op mark operand => do
    perform (.unary op mark.line (← valueOf operand))
  | .operation left (.binary op) mark right => do
    let left ← valueOf left
    let right ← valueOf right
    perform (.binary op mark.line left right)
  | .operation left (.logical op) _ right => do
    let left ← valueOf left
    if op.isSettledBy left then return left else valueOf right
  | .call callee paren arguments => do
    let callable ← perform (.callee paren.line (← valueOf callee))
    let arguments ← valuesOf arguments
    perform (.arity paren.line callable arguments)
    .start (.call paren.line) (.invoke callable paren.line arguments) .done

def Stmt.plan : Stmt → Plan Signal
  | .expression operand => do
    let _ ← valueOf operand
    return .completed
  | .print operand => do
    perform (.print (← valueOf operand).text)
    return .completed
  | .var name initializer => do
    perform (.define name (← valueOfOption initializer))
    return .completed
  | .function name params body => do
    perform (.define name (← perform (.declare name params body)))
    return .completed
  | .block statements => .start .block (.executeAll statements) .done
  | .if condition thenBranch elseBranch => do
    if (← valueOf condition).isTruthy then signalOf thenBranch
    else match elseBranch with
      | some elseBranch => signalOf elseBranch
      | none => return .completed
  | .while condition body => .start .plain (.loop condition body) .done
  | .break keyword => return .broke keyword
  | .return keyword value => return .returned keyword (← valueOfOption value)

namespace Task

def plan : (task : Task) → Plan task.Result
  | .evaluate expression => expression.plan
  | .evaluateAll [] => return []
  | .evaluateAll (expression :: rest) => do
    let value ← valueOf expression
    return value :: (← valuesOf rest)
  | .evaluateOption none => return Value.nil
  | .evaluateOption (some expression) => valueOf expression
  | .invoke (.native native) line arguments => perform (.native native line arguments)
  | .invoke (.function closure) _ arguments =>
    .start (.frame closure.scope (.ofArguments closure.params arguments)) (.executeAll closure.body)
      fun signal => return signal.result
  | .execute statement => statement.plan
  | .executeAll [] => return Signal.completed
  | .executeAll (statement :: rest) => do
    match ← signalOf statement with
    | .completed => .start .plain (.executeAll rest) .done
    | signal => return signal
  | .loop condition body => do
    if (← valueOf condition).isTruthy then
      match ← signalOf body with
      | .completed => .start .plain (.loop condition body) .done
      | .broke _ => return Signal.completed
      | signal => return signal
    else return Signal.completed

@[simp] theorem run_zero (task : Task) : task.run 0 = throw .suspended := by
  cases task <;> rfl

section Parts

variable (fuel : Nat)

@[simp] theorem follow_valueOf (expression : Expr) :
    (valueOf expression).follow (Task.run fuel) = Lox.evaluate fuel expression := by
  simp [valueOf, run]

@[simp] theorem follow_valueOfOption (expression : Option Expr) :
    (valueOfOption expression).follow (Task.run fuel) = Lox.evaluateOption fuel expression := by
  simp [valueOfOption, run]

@[simp] theorem follow_valuesOf (expressions : List Expr) :
    (valuesOf expressions).follow (Task.run fuel) = Lox.evaluateAll fuel expressions := by
  simp [valuesOf, run]

@[simp] theorem follow_signalOf (statement : Stmt) :
    (signalOf statement).follow (Task.run fuel) = Lox.execute fuel statement := by
  simp [signalOf, run]

end Parts

theorem evaluate_succ (fuel : Nat) (expression : Expr) :
    Lox.evaluate (fuel + 1) expression = expression.plan.follow (Task.run fuel) := by
  cases expression with
  | operation left op mark right => cases op <;> simp [Lox.evaluate, Expr.plan, Act.perform]
  | call callee paren arguments =>
    simp [Lox.evaluate, Expr.plan, run, Act.perform, Entry.around_call]
  | _ => simp [Lox.evaluate, Expr.plan, Act.perform]

theorem execute_succ (fuel : Nat) (statement : Stmt) :
    Lox.execute (fuel + 1) statement = statement.plan.follow (Task.run fuel) := by
  cases statement with
  | «if» condition thenBranch elseBranch => cases elseBranch <;> simp [Lox.execute, Stmt.plan]
  | _ => simp [Lox.execute, Stmt.plan, run, Act.perform, Entry.around_block]

theorem run_succ (fuel : Nat) (task : Task) :
    task.run (fuel + 1) = task.plan.follow (Task.run fuel) := by
  cases task with
  | evaluate expression => exact evaluate_succ fuel expression
  | evaluateAll expressions => cases expressions <;> simp [run, plan, Lox.evaluateAll]
  | evaluateOption expression => cases expression <;> simp [run, plan, Lox.evaluateOption]
  | invoke callable line arguments =>
    cases callable with
    | native primitive => simp [run, plan, Lox.invoke, Act.perform]
    | function closure => simp [run, plan, Lox.invoke, Entry.around_frame]
  | execute statement => exact execute_succ fuel statement
  | executeAll statements =>
    cases statements with
    | nil => rfl
    | cons statement rest =>
      simp only [run, plan, Lox.executeAll, follow_bind, follow_signalOf]
      congr 1
      funext signal
      cases signal <;> simp [run]
  | loop condition body =>
    simp only [run, plan, Lox.loop, follow_bind, follow_ite, follow_valueOf, follow_signalOf]
    congr 1
    funext value
    congr 2
    funext signal
    cases signal <;> simp [run]

end Task

/-! ## Programs -/

def programPlan : List Stmt → Plan Unit
  | [] => return ()
  | statement :: rest => do
    match ← signalOf statement with
    | .completed => programPlan rest
    | .broke keyword => perform (.fail keyword.line .breakOutsideLoop)
    | .returned keyword _ => perform (.fail keyword.line .returnOutsideFunction)

theorem interpret_eq_follow (fuel : Nat) (statements : List Stmt) :
    interpret fuel statements = (programPlan statements).follow (Task.run fuel) := by
  induction statements with
  | nil => rfl
  | cons statement rest ih =>
    simp only [interpret, programPlan, follow_bind, Task.follow_signalOf]
    congr 1
    funext signal
    cases signal <;> simp [ih, Act.perform]

end Lox
