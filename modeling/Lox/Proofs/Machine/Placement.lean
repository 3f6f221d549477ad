import Lox.Proofs.Grammar.Program
import Lox.Proofs.Machine.Governed

/-!
# Where signals end

The grammar has `break` only in the body of a loop and `return` only in the body of a function.  So
no statement of a program that was parsed without an error lets a signal out that nothing takes, and
no body of a function breaks.

* `Stmt.Placed`: every `break` and every `return` in a statement is where the grammar has it.
* `Clause.Derives.placed`: what the grammar derives is placed.
* `Task.run_proper`: a signal gets out of a statement only into a loop or a function around it.
* `Parsed`: a statement is from a program that was parsed without an error.  This is a discipline.
-/

namespace Lox

open Grammar Plan

/-- Every `break` is in a loop and every `return` is in a function, where the statement itself
stands in `context`. -/
inductive Stmt.Placed : Context → Stmt → Prop
  | block {context statements} : (∀ statement ∈ statements, Placed context statement) →
      Placed context (.block statements)
  | «break» {context keyword} : context.inLoop = true → Placed context (.break keyword)
  | expression {context operand} : Placed context (.expression operand)
  | function {context name params body} : (∀ statement ∈ body, Placed ⟨false, true⟩ statement) →
      Placed context (.function name params body)
  | «if» {context condition thenBranch elseBranch} : Placed context thenBranch →
      (∀ statement ∈ elseBranch.toList, Placed context statement) →
      Placed context (.if condition thenBranch elseBranch)
  | print {context operand} : Placed context (.print operand)
  | «return» {context keyword value} : context.inFunction = true →
    Placed context (.return keyword value)
  | var {context name initializer} : Placed context (.var name initializer)
  | «while» {context condition body} : Placed { context with inLoop := true } body →
      Placed context (.while condition body)

namespace Grammar

/-- Every `break` and `return` in the trees of the clause is where it may stand. -/
def Clause.Placed : Clause → Prop
  | .declaration context _ tree | .statement context _ tree => tree.Placed context
  | .declarations context trees => ∀ tree ∈ trees, tree.Placed context

theorem VariableDeclaration.placed {tree : Stmt} {ts : List Token}
    (derives : VariableDeclaration tree ts) (context : Context) : tree.Placed context := by
  cases derives <;> exact .var

theorem ExpressionStatement.placed {tree : Stmt} {ts : List Token}
    (derives : ExpressionStatement tree ts) (context : Context) : tree.Placed context := by
  cases derives
  exact .expression

theorem Initializer.placed {tree? : Option Stmt} {ts : List Token} (derives : Initializer tree? ts)
    (context : Context) : ∀ tree ∈ tree?.toList, tree.Placed context := by
  intro tree mem
  cases derives with
  | absent => cases mem
  | «variable» derives =>
    rw [Option.toList_some, List.mem_singleton] at mem
    rw [mem]
    exact derives.placed context
  | expression derives =>
    rw [Option.toList_some, List.mem_singleton] at mem
    rw [mem]
    exact derives.placed context

theorem Clause.Derives.placed {clause : Clause} {ts : List Token} (derives : clause.Derives ts) :
    clause.Placed := by
  induction derives with
  | nil => exact fun _ mem => absurd mem List.not_mem_nil
  | cons _ _ ih ihs => exact List.forall_mem_cons.2 ⟨ih, ihs⟩
  | functionDeclaration _ _ _ _ _ _ _ _ _ ih => exact .function ih
  | variableDeclaration derives => exact derives.placed _
  | statement _ ih => exact ih
  | expressionStatement derives => exact derives.placed _
  | printStatement => exact .print
  | breakStatement _ _ inLoop => exact .break inLoop
  | returnStatement _ _ inFunction => exact .return inFunction
  | blockStatement _ _ _ ih => exact .block ih
  | ifStatement _ _ _ _ _ ih => exact .if ih fun _ mem => absurd mem List.not_mem_nil
  | ifElseStatement _ _ _ _ _ _ _ ih ihElse =>
    refine .if ih ?_
    intro statement mem
    rw [Option.toList_some, List.mem_singleton] at mem
    rw [mem]
    exact ihElse
  | whileStatement _ _ _ _ _ ih => exact .while ih
  | forStatement _ _ _ _ initializer _ _ _ ih =>
    -- the loop is in a block with its initializer, and its body in one with the increment
    refine .block ?_
    intro statement mem
    rcases List.mem_append.1 mem with first | loop
    · exact initializer.placed _ statement first
    · rw [List.mem_singleton] at loop
      rw [loop]
      refine .while (.block (List.forall_mem_cons.2 ⟨ih, ?_⟩))
      intro increment mem
      rcases List.mem_map.1 mem with ⟨operand, -, rfl⟩
      exact .expression

end Grammar

/-! ## Signals -/

/-- The context takes a signal. -/
def Grammar.Context.Takes (context : Context) : Signal → Prop
  | .completed => True
  | .broke _ => context.inLoop = true
  | .returned _ _ => context.inFunction = true

/-- What a task may give: a signal that the context takes, whatever the context in which the task is
placed. -/
def Task.Signals : (task : Task) → task.Result → Prop
  | .execute statement, signal => ∀ context, statement.Placed context → context.Takes signal
  | .executeAll statements, signal =>
    ∀ context, (∀ statement ∈ statements, statement.Placed context) → Context.Takes context signal
  | .loop _ body, signal =>
    ∀ context, body.Placed { context with inLoop := true } → Context.Takes context signal
  | .evaluate _, _ | .evaluateAll _, _ | .evaluateOption _, _ | .invoke _ _ _, _ => True

/-- A run gives such a value, or it halts, but not for a stray signal. -/
def Proper {α : Type} (Good : α → Prop) : EStateM.Result Halt Machine α → Prop
  | .ok value _ => Good value
  | .error halt _ => ¬ halt.IsStray

/-- The act is not for a stray signal. -/
def Act.IsProper {α : Type} : Act α → Prop
  | .fail _ _ => False
  | _ => True

theorem Proper.of_quiet {machine : Machine} {result : EStateM.Result Halt Machine Value}
    (quiet : Quiet machine result) : Proper (fun _ => True) result := by
  cases quiet with
  | ok => exact trivial
  | error proper => exact proper

theorem Act.perform_proper {α : Type} {action : Act α} (proper : action.IsProper)
    (machine : Machine) : Proper (fun _ => True) (action.perform machine) := by
  cases action with
  | lookup name =>
    change Proper _ (Eval.lookup name machine)
    unfold Eval.lookup
    split
    · exact trivial
    · exact id
  | assign name value =>
    change Proper _ (Eval.assign name value machine)
    unfold Eval.assign
    split
    · exact trivial
    · exact id
  | define name value => exact trivial
  | declare name params body => exact trivial
  | unary op line operand => exact .of_quiet (.unary machine op line operand)
  | binary op line left right => exact .of_quiet (.binary machine op line left right)
  | callee line value =>
    change Proper _ (Eval.asCallable line value machine)
    unfold Eval.asCallable
    split
    · exact trivial
    · exact id
  | arity line callable arguments =>
    change Proper _ (Eval.checkArity line callable arguments machine)
    unfold Eval.checkArity
    split
    · exact trivial
    · exact id
  | native primitive line arguments => exact .of_quiet (.native machine primitive line arguments)
  | print text =>
    change Proper _ (Eval.print text machine)
    unfold Eval.print
    split
    · exact trivial
    · exact id
  | fail line fault => exact absurd proper id

theorem Entry.enter_proper {entry : Entry} {machine : Machine} {halt : Halt}
    (refused : entry.enter machine = .error halt) : ¬ halt.IsStray := by
  cases entry with
  | call line =>
    rw [enter] at refused
    split at refused
    · cases refused
      exact id
    · cases refused
  | _ => cases refused

namespace Plan

variable {α β : Type}

/-- A plan ends with such a value or halts properly, if the tasks that it starts give signals as
they may. -/
def Ends (Good : α → Prop) : Plan α → Prop
  | .done value => Good value
  | .act action next => action.IsProper ∧ ∀ value, (next value).Ends Good
  | .start _ task next => ∀ result, task.Signals result → (next result).Ends Good

theorem Ends.bind {Good : α → Prop} {Fine : β → Prop} {plan : Plan α} {f : α → Plan β}
    (ends : plan.Ends Good) (further : ∀ value, Good value → (f value).Ends Fine) :
    (plan >>= f).Ends Fine := by
  induction plan with
  | done value => exact further value ends
  | act action next ih => exact ⟨ends.1, fun value => ih value (ends.2 value)⟩
  | start entry task next ih => exact fun result signals => ih result (ends result signals)

theorem ends_valueOf (expression : Expr) : (valueOf expression).Ends fun _ => True :=
  fun _ _ => trivial

theorem ends_valueOfOption (expression : Option Expr) :
    (valueOfOption expression).Ends fun _ => True :=
  fun _ _ => trivial

theorem ends_valuesOf (expressions : List Expr) : (valuesOf expressions).Ends fun _ => True :=
  fun _ _ => trivial

theorem ends_perform (action : Act α) (proper : action.IsProper) :
    (perform action).Ends fun _ => True :=
  ⟨proper, fun _ => trivial⟩

theorem ends_signalOf (statement : Stmt) :
    (signalOf statement).Ends (Task.execute statement).Signals :=
  fun _ signals => signals

theorem Course.proper {run : (task : Task) → Eval task.Result}
    {traceOf : Task → Machine → List Event} {Good : α → Prop} {plan : Plan α} {machine : Machine}
    {events : List Event} {result : EStateM.Result Halt Machine α}
    (course : Course run traceOf plan machine events result)
    (tasks : ∀ task inner, Proper task.Signals (run task inner)) (ends : plan.Ends Good) :
    Proper Good result := by
  induction course with
  | done => exact ends
  | acted performed course ih => exact ih (ends.2 _)
  | @stopped β action next machine halt after performed =>
    have proper := Act.perform_proper ends.1 machine
    rw [performed] at proper
    exact proper
  | refused entered => exact Entry.enter_proper entered
  | @returned entry task next machine inner value after events result entered ran course ih =>
    have below := tasks task inner
    rw [ran] at below
    exact ih (ends value below)
  | @halted entry task next machine inner halt after entered ran =>
    have below := tasks task inner
    rw [ran] at below
    exact below

end Plan

theorem Expr.plan_ends (expression : Expr) : expression.plan.Ends fun _ => True := by
  cases expression with
  | literal value => exact trivial
  | «variable» name => exact ends_perform (.lookup name) trivial
  | grouping inner => exact ends_valueOf inner
  | assign name value =>
    refine (ends_valueOf value).bind fun result _ => ?_
    exact (ends_perform (.assign name result) trivial).bind fun _ _ => trivial
  | unary op mark operand =>
    exact (ends_valueOf operand).bind fun result _ =>
      ends_perform (.unary op mark.line result) trivial
  | operation left op mark right =>
    cases op with
    | binary op =>
      refine (ends_valueOf left).bind fun first _ => ?_
      exact (ends_valueOf right).bind fun second _ =>
        ends_perform (.binary op mark.line first second) trivial
    | logical op =>
      refine (ends_valueOf left).bind fun _ _ => ?_
      split
      · exact trivial
      · exact ends_valueOf right
  | call callee paren arguments =>
    refine (ends_valueOf callee).bind fun value _ => ?_
    refine (ends_perform (.callee paren.line value) trivial).bind fun callable _ => ?_
    refine (ends_valuesOf arguments).bind fun values _ => ?_
    exact (ends_perform (.arity paren.line callable values) trivial).bind fun _ _ _ _ => trivial

theorem Stmt.plan_ends (statement : Stmt) :
    statement.plan.Ends (Task.execute statement).Signals := by
  cases statement with
  | expression operand => exact (ends_valueOf operand).bind fun _ _ _ _ => trivial
  | print operand =>
    refine (ends_valueOf operand).bind fun value _ => ?_
    exact (ends_perform (.print value.text) trivial).bind fun _ _ _ _ => trivial
  | var name initializer =>
    refine (ends_valueOfOption initializer).bind fun value _ => ?_
    exact (ends_perform (.define name value) trivial).bind fun _ _ _ _ => trivial
  | function name params body =>
    refine (ends_perform (.declare name params body) trivial).bind fun value _ => ?_
    exact (ends_perform (.define name value) trivial).bind fun _ _ _ _ => trivial
  | block statements =>
    intro signal signals context placed
    cases placed with
    | block placed => exact signals context placed
  | «if» condition thenBranch elseBranch =>
    refine (ends_valueOf condition).bind fun _ _ => ?_
    split
    · intro signal signals context placed
      cases placed with
      | «if» placed _ => exact signals context placed
    · cases elseBranch with
      | none => exact fun _ _ => trivial
      | some other =>
        intro signal signals context placed
        cases placed with
        | «if» _ placed => exact signals context (placed other (List.mem_singleton_self other))
  | «while» condition body =>
    intro signal signals context placed
    cases placed with
    | «while» placed => exact signals context placed
  | «break» keyword =>
    intro context placed
    cases placed with
    | «break» inLoop => exact inLoop
  | «return» keyword value =>
    refine (ends_valueOfOption value).bind fun _ _ context placed => ?_
    cases placed with
    | «return» inFunction => exact inFunction

theorem Task.plan_ends (task : Task) : task.plan.Ends task.Signals := by
  cases task with
  | evaluate expression => exact expression.plan_ends
  | evaluateAll expressions =>
    cases expressions with
    | nil => exact trivial
    | cons expression rest =>
      refine (ends_valueOf expression).bind fun _ _ => ?_
      exact (ends_valuesOf rest).bind fun _ _ => trivial
  | evaluateOption expression =>
    cases expression with
    | none => exact trivial
    | some expression => exact ends_valueOf expression
  | invoke callable line arguments =>
    cases callable with
    | native primitive => exact ends_perform (.native primitive line arguments) trivial
    | function closure => exact fun _ _ => trivial
  | execute statement => exact statement.plan_ends
  | executeAll statements =>
    cases statements with
    | nil => exact fun _ _ => trivial
    | cons statement rest =>
      refine (ends_signalOf statement).bind fun signal first => ?_
      cases signal with
      | completed =>
        exact fun _ signals context placed => signals context fun other mem =>
          placed other (List.mem_cons_of_mem _ mem)
      | broke keyword =>
        exact fun context placed => first context (placed statement List.mem_cons_self)
      | returned keyword value =>
        exact fun context placed => first context (placed statement List.mem_cons_self)
  | loop condition body =>
    refine (ends_valueOf condition).bind fun _ _ => ?_
    split
    · refine (ends_signalOf body).bind fun signal first => ?_
      cases signal with
      | completed => exact fun _ signals => signals
      | broke keyword => exact fun _ _ => trivial
      | returned keyword value =>
        exact fun context placed => first { context with inLoop := true } placed
    · exact fun _ _ => trivial

/-- A signal gets out of a task only into a context that takes it, and no task halts for a stray
one. -/
theorem Task.run_proper (fuel : Nat) (task : Task) (machine : Machine) :
    Proper task.Signals (task.run fuel machine) := by
  induction fuel generalizing task machine with
  | zero =>
    rw [Task.run_zero]
    exact id
  | succ fuel ih =>
    rw [Task.run_succ]
    exact (Plan.course (Task.run fuel) (Task.trace fuel) task.plan machine).proper ih task.plan_ends

theorem programPlan_ends {statements : List Stmt}
    (placed : ∀ statement ∈ statements, statement.Placed ⟨false, false⟩) :
    (programPlan statements).Ends fun _ => True := by
  induction statements with
  | nil => exact trivial
  | cons statement rest ih =>
    refine (ends_signalOf statement).bind fun signal signals => ?_
    have taken := signals _ (placed statement List.mem_cons_self)
    cases signal with
    | completed => exact ih fun other mem => placed other (List.mem_cons_of_mem _ mem)
    | broke keyword => cases taken
    | returned keyword value => cases taken

theorem interpret_proper (fuel : Nat) {statements : List Stmt}
    (placed : ∀ statement ∈ statements, statement.Placed ⟨false, false⟩) (machine : Machine) :
    Proper (fun _ => True) (interpret fuel statements machine) := by
  rw [interpret_eq_follow]
  exact (Plan.course (Task.run fuel) (Task.trace fuel) (programPlan statements) machine).proper
    (Task.run_proper fuel)
    (programPlan_ends placed)

/-! ## Parsed statements -/

/-- A statement is part of another one, at any depth. -/
inductive Stmt.Occurs (statement : Stmt) : Stmt → Prop
  | self : Occurs statement statement
  | part {part whole} : part ∈ whole.parts → Occurs statement part → Occurs statement whole

theorem Stmt.Occurs.of_mem_parts {statement part whole : Stmt} (occurs : statement.Occurs whole)
    (mem : part ∈ statement.parts) : part.Occurs whole := by
  induction occurs with
  | self => exact .part mem .self
  | part above _ ih => exact .part above ih

/-- A statement is from a program that was parsed without an error. -/
def Parsed (statement : Stmt) : Prop :=
  ∃ ts program, parse ts = (program, []) ∧ ∃ whole ∈ program, statement.Occurs whole

/-- The functions that scopes bind are from programs that were parsed without an error. -/
def Scopes.AllParsed (scopes : Scopes) : Prop :=
  ∀ (id : ScopeId) (scope : Scope) (name : String) (closure : Closure),
    scopes.cells[id]? = some scope →
    scope.bindings.get? name = some (.callable (.function closure)) → Parsed closure.declaration

theorem Scopes.initial_allParsed : Scopes.initial.AllParsed := by
  intro id scope name closure found bound
  rcases (of_getElem?_initial found).2.2 name _ bound with ⟨primitive, same⟩
  cases same

theorem Parsed.of_mem {ts : List Token} {program : List Stmt} (parsed : parse ts = (program, [])) :
    ∀ statement ∈ program, Parsed statement :=
  fun statement mem => ⟨ts, program, parsed, statement, mem, .self⟩

theorem placed_of_parse {ts : List Token} {program : List Stmt}
    (parsed : parse ts = (program, [])) :
    ∀ statement ∈ program, statement.Placed ⟨false, false⟩ := by
  rw [parse_eq_iff, program_eq_iff] at parsed
  exact parsed.placed

theorem Stmt.Placed.exists_of_mem_parts {context : Context} {whole part : Stmt}
    (placed : whole.Placed context) (mem : part ∈ whole.parts) : ∃ inner, part.Placed inner := by
  cases placed with
  | block placed => exact ⟨_, placed part mem⟩
  | function placed => exact ⟨_, placed part mem⟩
  | «if» placed placedElse =>
    rcases List.mem_cons.1 mem with rfl | mem
    · exact ⟨_, placed⟩
    · exact ⟨_, placedElse part mem⟩
  | «while» placed =>
    rw [List.mem_singleton.1 mem]
    exact ⟨_, placed⟩
  | _ => cases mem

theorem Stmt.Placed.exists_of_occurs {statement whole : Stmt} (occurs : statement.Occurs whole)
    {context : Context} (placed : whole.Placed context) : ∃ inner, statement.Placed inner := by
  induction occurs generalizing context with
  | self => exact ⟨context, placed⟩
  | part mem _ ih =>
    rcases placed.exists_of_mem_parts mem with ⟨inner, placedPart⟩
    exact ih placedPart

/-- The body of a function that was parsed without an error never breaks. -/
theorem Parsed.body_ne_broke {closure : Closure} (parsed : Parsed closure.declaration) (fuel : Nat)
    (machine after : Machine) (keyword : Lexeme) :
    executeAll fuel closure.body machine ≠ .ok (.broke keyword) after := by
  rcases parsed with ⟨ts, program, parsed, whole, mem, occurs⟩
  rcases Stmt.Placed.exists_of_occurs occurs (placed_of_parse parsed whole mem) with
    ⟨context, placed⟩
  intro broke
  cases placed with
  | function placed =>
    have proper := Task.run_proper fuel (.executeAll closure.body) machine
    rw [Task.run, broke] at proper
    cases proper _ placed

/-- Only what was parsed without an error is executed. -/
def parsedDiscipline : Discipline where
  place _ _ := True
  code := Parsed
  base := 0
  place_mono _ _ := trivial
  place_of_lt _ _ _ := trivial
  place_new _ := trivial
  code_parts parsed mem := by
    rcases parsed with ⟨ts, program, parsed, whole, memWhole, occurs⟩
    exact ⟨ts, program, parsed, whole, memWhole, occurs.of_mem_parts mem⟩

theorem parsedDiscipline_holds_iff {machine : Machine} :
    parsedDiscipline.Holds machine ↔ machine.scopes.AllParsed := by
  constructor
  · intro holds id scope name closure found bound
    exact (holds.sound.bound id scope name _ trivial found bound).1
  · intro stored
    refine ⟨⟨Nat.zero_le _, fun _ _ _ _ _ _ => trivial, ?_⟩, trivial⟩
    intro id scope name value _ found bound
    unfold Discipline.Knows
    split
    · exact ⟨stored id scope name _ found bound, trivial⟩
    · trivial

/-- The machine after programs were run on it one after the other, each with a fuel of its own. -/
def Machine.afterAll (machine : Machine) (programs : List (Nat × List Stmt)) : Machine :=
  programs.foldl
    (fun machine program => machineAfter (interpret program.1 program.2 machine)) machine

theorem Machine.afterAll_allParsed {machine : Machine} (stored : machine.scopes.AllParsed)
    {programs : List (Nat × List Stmt)}
    (parsed : ∀ program ∈ programs, ∃ ts, parse ts = (program.2, [])) :
    (machine.afterAll programs).scopes.AllParsed := by
  induction programs generalizing machine with
  | nil => exact stored
  | cons program rest ih =>
    rcases parsed program List.mem_cons_self with ⟨ts, first⟩
    have governed :=
      interpret_governed (D := parsedDiscipline) program.1 program.2 (Parsed.of_mem first)
      (parsedDiscipline_holds_iff.2 stored)
    exact ih (parsedDiscipline_holds_iff.1 governed.holds) fun other mem =>
      parsed other (List.mem_cons_of_mem _ mem)

/-- Programs that were parsed without an error are run one after the other, on a machine whose
functions are from such programs.  In each of these runs every statement of the program that is
reached completes if it ends, nothing halts for a `break` outside of a loop or a `return` outside of
a function, and no body of a called function breaks. -/
theorem parsed_program_signals_taken {machine : Machine} (stored : machine.scopes.AllParsed)
    {earlier : List (Nat × List Stmt)}
    (parsedEarlier : ∀ program ∈ earlier, ∃ ts, parse ts = (program.2, [])) {ts : List Token}
    {program : List Stmt} (parsed : parse ts = (program, [])) (fuel : Nat) :
    (∀ before statement after middle signal last, program = before ++ statement :: after →
      interpret fuel before (machine.afterAll earlier) = .ok () middle →
      execute fuel statement middle = .ok signal last → signal = .completed) ∧
    (∀ line fault last,
      interpret fuel program (machine.afterAll earlier) =
        .error (.failure (.runtime line fault)) last →
      fault ≠ .breakOutsideLoop ∧ fault ≠ .returnOutsideFunction) ∧
    (∀ run closure line arguments, .starts run ∈ programTrace fuel program
      (machine.afterAll earlier) → run.task = .invoke (.function closure) line arguments →
      ∀ bodyFuel inner keyword last, executeAll bodyFuel closure.body inner ≠
        .ok (.broke keyword) last) := by
  have placed := placed_of_parse parsed
  refine ⟨?_, ?_, ?_⟩
  · intro before statement after middle signal last split _ ended
    have proper := Task.run_proper fuel (.execute statement) middle
    rw [Task.run, ended] at proper
    have taken := proper _ (placed statement (by rw [split]; simp))
    cases signal with
    | completed => rfl
    | broke keyword => cases taken
    | returned keyword value => cases taken
  · intro line fault last failed
    have proper := interpret_proper fuel placed (machine.afterAll earlier)
    rw [failed] at proper
    constructor
    · intro same
      rw [same] at proper
      exact proper trivial
    · intro same
      rw [same] at proper
      exact proper trivial
  · intro run closure line arguments started task bodyFuel inner keyword last
    have holds := parsedDiscipline_holds_iff.2 (Machine.afterAll_allParsed stored parsedEarlier)
    have fits :=
      (interpret_governed (D := parsedDiscipline) fuel program (Parsed.of_mem parsed) holds).fits _
        started
    have admitted := fits.2
    rw [task] at admitted
    exact Parsed.body_ne_broke admitted.1.1 bodyFuel inner last keyword

/-- A function with a loop that is left by a `break`, and with a `return`. -/
def functionWithLoop : List Token :=
  [Kind.fun, .identifier, .leftParen, .rightParen, .leftBrace, .while, .leftParen, .true,
    .rightParen, .break,
    .semicolon, .return, .semicolon, .rightBrace].map fun kind => ⟨⟨"f", 1⟩, kind⟩

/-- A loop that calls the function and then is left by a `break`. -/
def loopWithCall : List Token :=
  [Kind.while, .leftParen, .true, .rightParen, .leftBrace, .identifier, .leftParen, .rightParen,
    .semicolon, .break, .semicolon, .rightBrace].map fun kind => ⟨⟨"f", 2⟩, kind⟩

/-- The run ended with a value. -/
def Eval.succeeded {α : Type} : EStateM.Result Halt Machine α → Bool
  | .ok _ _ => true
  | .error _ _ => false

theorem Eval.exists_of_succeeded {α : Type} {result : EStateM.Result Halt Machine α}
    (success : Eval.succeeded result) : ∃ value last, result = .ok value last := by
  cases result with
  | ok value last => exact ⟨value, last, rfl⟩
  | error halt last => cases success

/-- A declared function is called. -/
def Event.isFunctionCall : Event → Bool
  | .starts ⟨_, .invoke (.function _) _ _, _⟩ => true
  | _ => false

theorem Event.exists_of_isFunctionCall {event : Event} (call : event.isFunctionCall) :
    ∃ run closure line arguments, event = .starts run ∧
      run.task = .invoke (.function closure) line arguments := by
  unfold isFunctionCall at call
  split at call
  · exact ⟨_, _, _, _, rfl, rfl⟩
  · cases call

/-- The loop is run to its end, with the `break` and the `return` of the function on the way. -/
theorem parsed_program_signals_taken_loopWithCall :
    let earlier := [(12, (parse functionWithLoop).1)]
    let machine := (Machine.initial {} {} { time := fun _ => 0 }).afterAll earlier
    let program := (parse loopWithCall).1
    (parse functionWithLoop).2 = [] ∧ (parse loopWithCall).2 = [] ∧
    (∃ last, interpret 12 program machine = .ok () last) ∧
    (∃ statement signal last, program = [statement] ∧
      execute 12 statement machine = .ok signal last ∧ signal = .completed) ∧
    (∀ line fault last, interpret 12 program machine =
      .error (.failure (.runtime line fault)) last →
      fault ≠ .breakOutsideLoop ∧ fault ≠ .returnOutsideFunction) ∧
    ∃ run closure line arguments, .starts run ∈ programTrace 12 program machine ∧
      run.task = .invoke (.function closure) line arguments ∧
      ∀ bodyFuel inner keyword last, executeAll bodyFuel closure.body inner ≠
        .ok (.broke keyword) last := by
  intro earlier machine program
  have parsed : parse loopWithCall = (program, []) := Prod.ext rfl rfl
  have parsedEarlier : ∀ other ∈ earlier, ∃ ts, parse ts = (other.2, []) := by
    intro other mem
    rw [List.mem_singleton.1 mem]
    exact ⟨functionWithLoop, Prod.ext rfl rfl⟩
  have stored : (Machine.initial {} {} { time := fun _ => 0 }).scopes.AllParsed :=
    Scopes.initial_allParsed
  obtain ⟨completes, proper, unbroken⟩ :=
    parsed_program_signals_taken stored parsedEarlier parsed 12
  obtain ⟨⟨⟩, last, ran⟩ : ∃ value last, interpret 12 program machine = .ok value last :=
    Eval.exists_of_succeeded (by decide +kernel)
  obtain ⟨statement, whole⟩ : ∃ statement, program = [statement] :=
    List.length_eq_one_iff.1 (by decide +kernel)
  obtain ⟨signal, next, ended⟩ : ∃ signal next, execute 12 statement machine = .ok signal next := by
    cases ended : execute 12 statement machine with
    | ok signal next => exact ⟨signal, next, rfl⟩
    | error halt next =>
      rw [whole] at ran
      cases (Eval.bind_of_error ended).symm.trans ran
  have completed := completes [] statement [] machine signal next whole rfl ended
  obtain ⟨event, happens, call⟩ : ∃ event ∈ programTrace 12 program machine, event.isFunctionCall :=
    List.any_eq_true.1 (by decide +kernel)
  obtain ⟨run, closure, line, arguments, rfl, task⟩ := Event.exists_of_isFunctionCall call
  have body := unbroken run closure line arguments happens task
  exact ⟨rfl, rfl, ⟨last, ran⟩, ⟨statement, signal, next, whole, ended, completed⟩, proper,
    run, closure, line, arguments, happens, task, body⟩

end Lox
