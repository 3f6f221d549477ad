import Lox.Proofs.Layout.Lined
import Lox.Proofs.Machine.Plan
import Lox.Proofs.Machine.Store

/-!
# Running trees with other line numbers

A run looks at what lexemes say and never at their lines, except to tell the line of a failure.  So
trees with other line numbers, on a machine with other line numbers, run as before: the values, the
output and the input that is left are the same, and only the line numbers in them are others.

* `Eval.Relined`: what one run does on a machine, another does on the machine after a change of
  lines.
* `evaluator_relined`, `interpret_relined`: the evaluator takes part in any change of lines, by
  induction on the fuel.
-/

namespace Lox

open Eval

variable (f : Nat → Nat)

instance : Lined Signal where
  reline f
    | .completed => .completed
    | .broke keyword => .broke (reline f keyword)
    | .returned keyword value => .returned (reline f keyword) (reline f value)
  reline_reline f g signal := by cases signal <;> simp only [reline_reline]

instance : Lined Failure where
  reline f
    | .runtime line fault => .runtime (f line) fault
    | .output error => .output error
  reline_reline f g failure := by cases failure <;> rfl

instance : Lined Halt where
  reline f
    | .failure failure => .failure (reline f failure)
    | .suspended => .suspended
  reline_reline f g halt := by cases halt <;> simp only [reline_reline]

instance {α : Type} [Lined α] : Lined (EStateM.Result Halt Machine α) where
  reline f
    | .ok value machine => .ok (reline f value) (reline f machine)
    | .error halt machine => .error (reline f halt) (reline f machine)
  reline_reline f g result := by cases result <;> simp only [reline_reline]

/-! ## Values -/

namespace Value

variable (value : Value)

@[simp] theorem isTruthy_reline : (reline f value).isTruthy = value.isTruthy := by
  cases value <;> rfl

@[simp] theorem text_reline : (reline f value).text = value.text := by
  cases value with
  | callable callable => cases callable <;> rfl
  | _ => rfl

@[simp] theorem equals_reline (other : Value) :
    (reline f value).equals (reline f other) = value.equals other := by
  cases value with
  | callable callable =>
    cases other with
    | callable other => cases callable <;> cases other <;> rfl
    | _ => rfl
  | _ => cases other <;> rfl

end Value

@[simp] theorem Callable.arity_reline (callable : Callable) :
    (reline f callable).arity = callable.arity := by
  cases callable with
  | function closure => exact length_reline f closure.params
  | native primitive => rfl

@[simp] theorem Signal.result_reline (signal : Signal) :
    (reline f signal).result = reline f signal.result := by
  cases signal <;> rfl

/-! ## Scopes -/

namespace Bindings

variable (bindings : Bindings) (name : String)

theorem get?_reline : Bindings.get? (reline f bindings) name = reline f (bindings.get? name) := by
  induction bindings with
  | nil => rfl
  | cons binding rest ih =>
    obtain ⟨other, value⟩ := binding
    simp only [Bindings.get?, reline_cons, reline_pair, reline_text, List.lookup_cons] at ih ⊢
    cases name == other with
    | true => rfl
    | false => exact ih

@[simp] theorem binds_reline : Bindings.binds (reline f bindings) name = bindings.binds name := by
  rw [binds, binds, get?_reline]
  cases Bindings.get? bindings name <;> rfl

theorem insert_reline (value : Value) :
    Bindings.insert name (reline f value) (reline f bindings) =
      reline f (bindings.insert name value) := by
  induction bindings with
  | nil => rfl
  | cons binding rest ih =>
    obtain ⟨other, old⟩ := binding
    simp only [reline_cons, reline_pair, reline_text, Bindings.insert, ih]
    split <;> rfl

theorem ofArguments_reline (params : List Lexeme) (arguments : List Value) :
    Bindings.ofArguments (reline f params) (reline f arguments) =
      reline f (Bindings.ofArguments params arguments) := by
  have folded : ∀ bindings : Bindings,
      (List.zip (reline f params) (reline f arguments)).foldl
        (fun bindings pair => bindings.insert pair.1.text pair.2) (reline f bindings) =
      reline f
        ((params.zip arguments).foldl (fun bindings pair => bindings.insert pair.1.text pair.2)
          bindings) := by
    induction params generalizing arguments with
    | nil => intro bindings; rfl
    | cons param params ih =>
      intro bindings
      cases arguments with
      | nil => rfl
      | cons argument arguments =>
        simp only [reline_cons, List.zip_cons_cons, List.foldl_cons, Lexeme.text_reline,
          insert_reline]
        exact ih arguments _
  exact folded []

end Bindings

namespace Scopes

variable (scopes : Scopes)

@[simp] theorem nextId_reline : (reline f scopes).nextId = scopes.nextId := Array.size_map

theorem getElem?_reline (id : ScopeId) :
    (reline f scopes).cells[id]? = reline f scopes.cells[id]? :=
  Array.getElem?_map

theorem push_reline (enclosing : ScopeId) (bindings : Bindings) :
    (reline f scopes).push enclosing (reline f bindings) =
      reline f (scopes.push enclosing bindings) := by
  have pushed : (scopes.cells.push ⟨some enclosing, bindings⟩).map (reline f) =
      (scopes.cells.map (reline f)).push (reline f ⟨some enclosing, bindings⟩) := Array.map_push
  exact congrArg Scopes.mk pushed.symm

theorem define_reline (id : ScopeId) (name : String) (value : Value) :
    (reline f scopes).define id name (reline f value) = reline f (scopes.define id name value) := by
  have inserted : ∀ scope : Scope,
      { reline f scope
        with bindings := Bindings.insert name (reline f value) (reline f scope).bindings } =
      reline f { scope with bindings := Bindings.insert name value scope.bindings } := fun scope =>
    congrArg (Scope.mk scope.enclosing) (Bindings.insert_reline f scope.bindings name value)
  apply congrArg Scopes.mk
  apply Array.ext_getElem?
  intro other
  have old := getElem?_reline f scopes other
  simp only [Array.getElem?_map, Array.getElem?_modify, old, define]
  split
  · cases scopes.cells[other]? with
    | none => rfl
    | some scope => exact congrArg some (inserted scope)
  · rfl

theorem resolveWithin_reline (name : String) (steps : Nat) (id : ScopeId) :
    (reline f scopes).resolveWithin name steps id = scopes.resolveWithin name steps id := by
  induction steps generalizing id with
  | zero => rfl
  | succ steps ih =>
    simp only [resolveWithin, getElem?_reline]
    cases scopes.cells[id]? with
    | none => rfl
    | some scope =>
      have binds : (reline f scope).bindings.binds name = scope.bindings.binds name :=
        Bindings.binds_reline f scope.bindings name
      have enclosing : (reline f scope).enclosing = scope.enclosing := rfl
      simp only [reline_some, binds, enclosing, ih]

theorem get?_reline (id : ScopeId) (name : String) :
    (reline f scopes).get? id name = reline f (scopes.get? id name) := by
  simp only [get?_eq_bind_resolve?, resolve?, resolveWithin_reline]
  cases scopes.resolveWithin name (id + 1) id with
  | none => rfl
  | some target =>
    simp only [Option.bind_some, getElem?_reline]
    cases scopes.cells[target]? with
    | none => rfl
    | some scope => exact Bindings.get?_reline f scope.bindings name

theorem assign?_reline (id : ScopeId) (name : String) (value : Value) :
    (reline f scopes).assign? id name (reline f value) =
      reline f (scopes.assign? id name value) := by
  simp only [assign?, resolve?, resolveWithin_reline]
  cases scopes.resolveWithin name (id + 1) id with
  | none => rfl
  | some target => exact congrArg some (define_reline f scopes target name value)

end Scopes

namespace Machine

variable (machine : Machine)

@[simp] theorem scopes_reline : (reline f machine).scopes = reline f machine.scopes := rfl

@[simp] theorem current_reline : (reline f machine).current = machine.current := rfl

@[simp] theorem source_reline : (reline f machine).source = machine.source := rfl

@[simp] theorem sink_reline : (reline f machine).sink = machine.sink := rfl

@[simp] theorem clock_reline : (reline f machine).clock = machine.clock := rfl

end Machine

/-! ## Acts -/

namespace Eval

variable {f}
variable {α β : Type} [Lined α] [Lined β]

variable (f) in
/-- On a machine with other lines the second run does what the first one does on the machine, with
these other lines. -/
def Relined (x y : Eval α) : Prop := ∀ machine, y (reline f machine) = reline f (x machine)

namespace Relined

variable {x y : Eval α}

theorem pure (value : α) : Relined f (Pure.pure value) (Pure.pure (reline f value)) := fun _ => rfl

theorem bind (first : Relined f x y) {next other : α → Eval β}
    (rest : ∀ value, Relined f (next value) (other (reline f value))) :
    Relined f (x >>= next) (y >>= other) := by
  intro machine
  change EStateM.bind y other (reline f machine) = reline f (EStateM.bind x next machine)
  unfold EStateM.bind
  rw [first machine]
  cases x machine with
  | ok value middle => exact rest value middle
  | error halt middle => rfl

theorem suspended : Relined f (throw .suspended : Eval α) (throw .suspended) := fun _ => rfl

theorem fail (line : Nat) (fault : RuntimeFault) :
    Relined f (Eval.fail line fault : Eval α) (Eval.fail (f line) fault) := fun _ => rfl

theorem ite (condition : Bool) {x' y' : Eval α} (first : Relined f x y) (second : Relined f x' y') :
    Relined f (if condition then x else x') (if condition then y else y') := by
  cases condition with
  | true => exact first
  | false => exact second

theorem lookup (name : Lexeme) : Relined f (Eval.lookup name) (Eval.lookup (reline f name)) := by
  intro machine
  simp only [Eval.lookup, Machine.scopes_reline, Machine.current_reline, Lexeme.text_reline,
    Scopes.get?_reline]
  cases machine.scopes.get? machine.current name.text <;> rfl

theorem assign (name : Lexeme) (value : Value) :
    Relined f (Eval.assign name value) (Eval.assign (reline f name) (reline f value)) := by
  intro machine
  simp only [Eval.assign, Machine.scopes_reline, Machine.current_reline, Lexeme.text_reline,
    Scopes.assign?_reline]
  cases machine.scopes.assign? machine.current name.text value <;> rfl

theorem define (name : Lexeme) (value : Value) :
    Relined f (Eval.define name value) (Eval.define (reline f name) (reline f value)) := by
  intro machine
  have defined := Scopes.define_reline f machine.scopes machine.current name.text value
  exact congrArg (fun scopes => EStateM.Result.ok () { machine with scopes }) defined

theorem declare (name : Lexeme) (params : List Lexeme) (body : List Stmt) :
    Relined f (Eval.declare name params body)
      (Eval.declare (reline f name) (reline f params) (reline f body)) :=
  fun _ => rfl

theorem print (text : String) : Relined f (Eval.print text) (Eval.print text) := by
  intro machine
  simp only [Eval.print, Machine.sink_reline]
  cases machine.sink.writeLine text <;> rfl

theorem asCallable (line : Nat) (value : Value) :
    Relined f (Eval.asCallable line value) (Eval.asCallable (f line) (reline f value)) := by
  cases value <;> exact fun _ => rfl

theorem checkArity (line : Nat) (callable : Callable) (arguments : List Value) :
    Relined f (Eval.checkArity line callable arguments)
      (Eval.checkArity (f line) (reline f callable) (reline f arguments)) := by
  simp only [Eval.checkArity, Callable.arity_reline, length_reline]
  split
  · exact .pure ()
  · exact .fail line _

theorem applyUnary (op : UnaryOp) (line : Nat) (operand : Value) :
    Relined f (Eval.applyUnary op line operand)
      (Eval.applyUnary op (f line) (reline f operand)) := by
  cases op with
  | negate => cases operand <;> exact fun _ => rfl
  | not =>
    simp only [Eval.applyUnary, Value.isTruthy_reline]
    exact .pure _

theorem onNumbers (line : Nat) (left right : Value) {combine : Float → Float → Value}
    (plain : ∀ x y, reline f (combine x y) = combine x y) :
    Relined f (Eval.onNumbers line left right combine)
      (Eval.onNumbers (f line) (reline f left) (reline f right) combine) := by
  cases left with
  | number x =>
    cases right with
    | number y =>
      intro machine
      exact congrArg (EStateM.Result.ok · (reline f machine)) (plain x y).symm
    | _ => exact fun _ => rfl
  | _ => exact fun _ => rfl

theorem applyBinary (op : BinaryOp) (line : Nat) (left right : Value) :
    Relined f (Eval.applyBinary op line left right)
      (Eval.applyBinary op (f line) (reline f left) (reline f right)) := by
  cases op with
  | add => cases left <;> cases right <;> exact fun _ => rfl
  | divide =>
    cases left with
    | number x =>
      cases right with
      | number y => exact .ite (y == 0) (.fail line _) (.pure (Value.number (x / y)))
      | _ => exact fun _ => rfl
    | _ => exact fun _ => rfl
  | equal =>
    simp only [Eval.applyBinary, Value.equals_reline]
    exact .pure _
  | notEqual =>
    simp only [Eval.applyBinary, Value.equals_reline]
    exact .pure _
  | _ => exact .onNumbers line left right fun _ _ => rfl

theorem native (primitive : Native) (line : Nat) (arguments : List Value) :
    Relined f (primitive.invoke line arguments)
      (primitive.invoke (f line) (reline f arguments)) := by
  cases primitive with
  | clock =>
    intro machine
    simp only [Native.invoke, Native.readClock, Machine.clock_reline]
    cases machine.clock.read with
    | mk time clock => cases time <;> rfl
  | input =>
    intro machine
    simp only [Native.invoke, Native.readLine, Machine.source_reline]
    cases machine.source.read with
    | mk reading source => cases reading <;> rfl
  | number =>
    have head : (reline f arguments).headD .nil = reline f (arguments.headD .nil) := by
      cases arguments <;> rfl
    simp only [Native.invoke, head]
    cases arguments.headD .nil with
    | string text =>
      intro machine
      change Native.toNumber (f line) (.string text) (reline f machine) = _
      simp only [Native.toNumber]
      cases Numeral.read? text <;> rfl
    | callable callable =>
      intro machine
      have same := Value.text_reline f (.callable callable)
      exact congrArg (fun text => Eval.fail (f line) (.notNumeric text) (reline f machine)) same
    | _ => exact fun _ => rfl

end Relined

end Eval

/-! ## Starting a task -/

instance : Lined Entry where
  reline f
    | .plain => .plain
    | .block => .block
    | .frame enclosing bindings => .frame enclosing (reline f bindings)
    | .call line => .call (f line)
  reline_reline f g entry := by cases entry <;> simp only [reline_reline, Function.comp_def]

namespace Entry

variable {f} {machine inner after : Machine} {entry : Entry}

theorem inScope_reline (machine : Machine) (enclosing : ScopeId) (bindings : Bindings) :
    (reline f machine).inScope enclosing (reline f bindings) =
      reline f (machine.inScope enclosing bindings) := by
  unfold Machine.inScope
  rw [Machine.scopes_reline, Scopes.push_reline, Scopes.nextId_reline]
  rfl

theorem enter_reline_ok (entered : entry.enter machine = .ok inner) :
    (reline f entry).enter (reline f machine) = .ok (reline f inner) := by
  cases entry with
  | plain =>
    cases entered
    rfl
  | block =>
    cases entered
    exact congrArg Except.ok (inScope_reline machine machine.current [])
  | frame enclosing bindings =>
    cases entered
    exact congrArg Except.ok (inScope_reline machine enclosing bindings)
  | call line =>
    by_cases deep : Machine.maxDepth ≤ machine.depth
    · simp only [enter, deep, ↓reduceIte, reduceCtorEq] at entered
    · simp only [enter, deep, ↓reduceIte] at entered
      cases entered
      exact if_neg deep

theorem enter_reline_error {halt : Halt} (refused : entry.enter machine = .error halt) :
    (reline f entry).enter (reline f machine) = .error (reline f halt) := by
  cases entry with
  | call line =>
    by_cases deep : Machine.maxDepth ≤ machine.depth
    · simp only [enter, deep, ↓reduceIte] at refused
      cases refused
      exact if_pos deep
    · simp only [enter, deep, ↓reduceIte, reduceCtorEq] at refused
  | _ => cases refused

theorem leave_reline (entry : Entry) :
    (reline f entry).leave (reline f machine) (reline f after) =
      reline f (entry.leave machine after) := by
  cases entry <;> rfl

theorem around_relined {α : Type} [Lined α] (entry : Entry) {x y : Eval α}
    (inside : Relined f x y) : Relined f (entry.around x) ((reline f entry).around y) := by
  intro machine
  cases entered : entry.enter machine with
  | error halt =>
    rw [around_of_refused entered]
    exact around_of_refused (enter_reline_error entered)
  | ok inner =>
    have ran := inside inner
    cases first : x inner with
    | ok value after =>
      rw [first] at ran
      rw [around_of_ok entered first, around_of_ok (enter_reline_ok entered) ran, leave_reline]
      rfl
    | error halt after =>
      rw [first] at ran
      rw [around_of_error entered first,
        around_of_error (enter_reline_ok entered) ran, leave_reline]
      rfl

end Entry

/-! ## The evaluator -/

/-- With the given fuel the evaluator takes part in a change of lines. -/
structure EvaluatorRelined (f : Nat → Nat) (fuel : Nat) : Prop where
  evaluate :
    ∀ expression, Relined f (evaluate fuel expression) (evaluate fuel (reline f expression))
  evaluateAll : ∀ expressions,
    Relined f (evaluateAll fuel expressions) (evaluateAll fuel (reline f expressions))
  evaluateOption : ∀ expression,
    Relined f (evaluateOption fuel expression) (evaluateOption fuel (reline f expression))
  invoke : ∀ callable line arguments,
    Relined f (invoke fuel callable line arguments)
      (invoke fuel (reline f callable) (f line) (reline f arguments))
  execute : ∀ statement, Relined f (execute fuel statement) (execute fuel (reline f statement))
  executeAll :
    ∀ statements, Relined f (executeAll fuel statements) (executeAll fuel (reline f statements))
  loop : ∀ condition body,
    Relined f (loop fuel condition body) (loop fuel (reline f condition) (reline f body))

section Evaluator

variable {f} {fuel : Nat} (below : EvaluatorRelined f fuel)

include below

theorem evaluate_relined (expression : Expr) :
    Relined f (evaluate (fuel + 1) expression) (evaluate (fuel + 1) (reline f expression)) := by
  cases expression with
  | literal value => cases value <;> exact .pure _
  | «variable» name => exact .lookup name
  | grouping inner => exact below.evaluate inner
  | assign name value =>
    exact (below.evaluate value).bind fun value =>
      (Relined.assign name value).bind fun _ => .pure value
  | unary op mark operand =>
    exact (below.evaluate operand).bind fun value => .applyUnary op mark.line value
  | operation left op mark right =>
    cases op with
    | binary op =>
      refine (below.evaluate left).bind fun first => (below.evaluate right).bind fun second => ?_
      exact .applyBinary op mark.line first second
    | logical op =>
      refine (below.evaluate left).bind fun first => ?_
      have settled : op.isSettledBy (reline f first) = op.isSettledBy first := by
        cases op <;> simp only [LogicalOp.isSettledBy, Value.isTruthy_reline]
      rw [settled]
      exact .ite _ (.pure first) (below.evaluate right)
  | call callee paren arguments =>
    rw [Expr.reline_call]
    simp only [Lox.evaluate, ← Entry.around_call]
    refine (below.evaluate callee).bind fun value =>
      (Relined.asCallable paren.line value).bind fun callable => ?_
    refine (below.evaluateAll arguments).bind fun values => ?_
    refine (Relined.checkArity paren.line callable values).bind fun _ => ?_
    exact Entry.around_relined (.call paren.line) (below.invoke callable paren.line values)

theorem evaluateAll_relined (expressions : List Expr) :
    Relined f (evaluateAll (fuel + 1) expressions)
      (evaluateAll (fuel + 1) (reline f expressions)) := by
  cases expressions with
  | nil => exact .pure []
  | cons expression rest =>
    refine (below.evaluate expression).bind fun value =>
      (below.evaluateAll rest).bind fun values => ?_
    exact .pure (value :: values)

theorem evaluateOption_relined (expression : Option Expr) :
    Relined f (evaluateOption (fuel + 1) expression)
      (evaluateOption (fuel + 1) (reline f expression)) := by
  cases expression with
  | none => exact .pure Value.nil
  | some expression => exact below.evaluate expression

theorem invoke_relined (callable : Callable) (line : Nat) (arguments : List Value) :
    Relined f (invoke (fuel + 1) callable line arguments)
      (invoke (fuel + 1) (reline f callable) (f line) (reline f arguments)) := by
  cases callable with
  | native primitive => exact .native primitive line arguments
  | function closure =>
    have entries :
        Entry.frame closure.scope (.ofArguments (reline f closure.params) (reline f arguments)) =
        reline f (Entry.frame closure.scope (.ofArguments closure.params arguments)) :=
      congrArg (Entry.frame closure.scope) (Bindings.ofArguments_reline f closure.params arguments)
    have bodies :=
      Entry.around_relined (.frame closure.scope (.ofArguments closure.params arguments))
      (below.executeAll closure.body)
    rw [← entries] at bodies
    refine bodies.bind fun signal => ?_
    rw [Signal.result_reline]
    exact .pure _

theorem execute_relined (statement : Stmt) :
    Relined f (execute (fuel + 1) statement) (execute (fuel + 1) (reline f statement)) := by
  cases statement with
  | expression operand => exact (below.evaluate operand).bind fun _ => .pure Signal.completed
  | print operand =>
    refine (below.evaluate operand).bind fun value => ?_
    rw [Value.text_reline]
    exact (Relined.print value.text).bind fun _ => .pure Signal.completed
  | var name initializer =>
    refine (below.evaluateOption initializer).bind fun value => ?_
    exact (Relined.define name value).bind fun _ => .pure Signal.completed
  | function name params body =>
    rw [Stmt.reline_function]
    refine (Relined.declare name params body).bind fun value => ?_
    exact (Relined.define name value).bind fun _ => .pure Signal.completed
  | block statements =>
    rw [Stmt.reline_block]
    simp only [Lox.execute, ← Entry.around_block]
    exact Entry.around_relined .block (below.executeAll statements)
  | «if» condition thenBranch elseBranch =>
    rw [Stmt.reline_if]
    refine (below.evaluate condition).bind fun value => ?_
    rw [Value.isTruthy_reline]
    refine .ite _ (below.execute thenBranch) ?_
    cases elseBranch with
    | none => exact .pure Signal.completed
    | some elseBranch => exact below.execute elseBranch
  | «while» condition body => exact below.loop condition body
  | «break» keyword => exact .pure (Signal.broke keyword)
  | «return» keyword value =>
    exact (below.evaluateOption value).bind fun value => .pure (Signal.returned keyword value)

theorem executeAll_relined (statements : List Stmt) :
    Relined f (executeAll (fuel + 1) statements) (executeAll (fuel + 1) (reline f statements)) := by
  cases statements with
  | nil => exact .pure Signal.completed
  | cons statement rest =>
    refine (below.execute statement).bind fun signal => ?_
    cases signal with
    | completed => exact below.executeAll rest
    | broke keyword => exact .pure (Signal.broke keyword)
    | returned keyword value => exact .pure (Signal.returned keyword value)

theorem loop_relined (condition : Expr) (body : Stmt) :
    Relined f (loop (fuel + 1) condition body)
      (loop (fuel + 1) (reline f condition) (reline f body)) := by
  refine (below.evaluate condition).bind fun value => ?_
  rw [Value.isTruthy_reline]
  refine .ite _ ?_ (.pure Signal.completed)
  refine (below.execute body).bind fun signal => ?_
  cases signal with
  | completed => exact below.loop condition body
  | broke keyword => exact .pure Signal.completed
  | returned keyword value => exact .pure (Signal.returned keyword value)

end Evaluator

theorem evaluator_relined (fuel : Nat) : EvaluatorRelined f fuel := by
  induction fuel with
  | zero =>
    exact ⟨fun _ => .suspended, fun _ => .suspended, fun _ => .suspended, fun _ _ _ => .suspended,
      fun _ => .suspended, fun _ => .suspended, fun _ _ => .suspended⟩
  | succ fuel ih =>
    exact ⟨evaluate_relined ih, evaluateAll_relined ih, evaluateOption_relined ih,
      invoke_relined ih, execute_relined ih, executeAll_relined ih, loop_relined ih⟩

/-- A program with other line numbers runs as before, but for the line numbers. -/
theorem interpret_relined (fuel : Nat) (statements : List Stmt) :
    Relined f (interpret fuel statements) (interpret fuel (reline f statements)) := by
  induction statements with
  | nil => exact .pure ()
  | cons statement rest ih =>
    refine ((evaluator_relined f fuel).execute statement).bind fun signal => ?_
    cases signal with
    | completed => exact ih
    | broke keyword => exact .fail keyword.line _
    | returned keyword value => exact .fail keyword.line _

end Lox
