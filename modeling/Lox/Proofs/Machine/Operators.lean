import Lox.Proofs.Grammar.Salvage
import Lox.Proofs.Machine.Governed
import Lox.Proofs.Machine.Moment

/-!
# The operators that are applied

Whatever tokens a session is given, and whatever is wrong with them, each operator that is ever
applied is the one that some of the tokens stands for.  A function keeps its body for later steps,
so this is a matter of what the scopes bind, too.

* `writtenDiscipline`: only what was written is executed.
* `Task.Begins.written`, `Moment.written`: a task that is written starts only tasks that are.
-/

namespace Lox

open Grammar Plan

/-! ## What a task is made of -/

/-- The trees of a task are made of the tokens.  For a call this is the body of the function. -/
def Task.Written (tokens : List Token) : Task → Prop
  | .evaluate expression => expression.Written tokens
  | .evaluateAll expressions => ∀ expression ∈ expressions, expression.Written tokens
  | .evaluateOption expression? => ∀ expression ∈ expression?, expression.Written tokens
  | .invoke (.function closure) _ _ => closure.declaration.Written tokens .declaration
  | .invoke (.native _) _ _ => True
  | .execute statement => statement.Written tokens .declaration
  | .executeAll statements => ∀ statement ∈ statements, statement.Written tokens .declaration
  | .loop condition body => condition.Written tokens ∧ body.Written tokens .declaration

variable {tokens : List Token}

theorem Expr.Written.of_mem_operands {whole operand : Expr} (written : whole.Written tokens)
    (mem : operand ∈ whole.operands) : operand.Written tokens := by
  cases written with
  | assign value =>
    rw [List.mem_singleton.1 mem]
    exact value
  | operation _ _ left right =>
    rcases List.mem_cons.1 mem with rfl | mem
    · exact left
    · rw [List.mem_singleton.1 mem]
      exact right
  | unary _ _ inner =>
    rw [List.mem_singleton.1 mem]
    exact inner
  | call callee _ =>
    rw [List.mem_singleton.1 mem]
    exact callee
  | grouping inner =>
    rw [List.mem_singleton.1 mem]
    exact inner
  | literal => cases mem
  | «variable» => cases mem

theorem Stmt.Written.of_mem_parts {position : Position} {whole part : Stmt}
    (written : whole.Written tokens position) (mem : part ∈ whole.parts) :
    part.Written tokens .declaration := by
  cases written with
  | block written => exact written part mem
  | function written => exact written part mem
  | «if» _ thenBranch elseBranch =>
    rcases List.mem_cons.1 mem with rfl | mem
    · exact thenBranch.declared
    · exact (elseBranch part (Option.mem_toList.1 mem)).declared
  | «while» _ body =>
    rw [List.mem_singleton.1 mem]
    exact body.declared
  | _ => cases mem

/-- A task that is written starts only tasks that are, if the functions that it calls are. -/
theorem Task.Begins.written {outer task : Task} {entry : Entry} (begins : outer.Begins entry task)
    (written : outer.Written tokens)
    (called : ∀ closure line values, task = .invoke (.function closure) line values →
      closure.declaration.Written tokens .declaration) : task.Written tokens := by
  cases begins with
  | operand mem => exact Expr.Written.of_mem_operands written mem
  | arguments =>
    cases written with
    | call _ all => exact all
  | @call _ _ _ callable _ =>
    cases callable with
    | native primitive => exact trivial
    | function closure => exact called closure _ _ rfl
  | argument => exact written _ List.mem_cons_self
  | otherArguments => exact fun expression mem => written expression (List.mem_cons_of_mem _ mem)
  | present => exact written _ rfl
  | body => exact fun statement mem => Stmt.Written.of_mem_parts written mem
  | expression =>
    cases written with
    | expression operand => exact operand
  | print =>
    cases written with
    | print operand => exact operand
  | initializer =>
    cases written with
    | var all => exact all
  | result =>
    cases written with
    | «return» all => exact all
  | block => exact fun statement mem => Stmt.Written.of_mem_parts written mem
  | condition =>
    cases written with
    | «if» condition _ _ => exact condition
  | branch mem => exact Stmt.Written.of_mem_parts written mem
  | «while» =>
    cases written with
    | «while» condition body => exact ⟨condition, body.declared⟩
  | statement => exact written _ List.mem_cons_self
  | otherStatements => exact fun statement mem => written statement (List.mem_cons_of_mem _ mem)
  | loopCondition => exact written.1
  | loopBody => exact written.2
  | again => exact written

/-- The latest of the runs in progress is written, if the plan starts only tasks that are and calls
only functions that are. -/
theorem Moment.written {α : Type} {fuel : Nat} {plan : Plan α} {machine now : Machine}
    {runs : List Run} (outer : plan.StartsOnly False fun _ task => task.Written tokens)
    (called : ∀ run closure line values, .starts run ∈ plan.trace (Task.run fuel)
      (Task.trace fuel) machine → run.task = .invoke (.function closure) line values →
      closure.declaration.Written tokens .declaration)
    (moment : Moment fuel plan machine runs now) : ∀ run ∈ runs.head?, run.task.Written tokens := by
  induction moment with
  | own => exact fun _ mem => absurd mem (by simp)
  | first reaches =>
    intro run same
    cases same
    rcases reaches with ⟨next, before, leads, -⟩
    exact (leads.startsOnly outer).1
  | within _ _ ih => exact ih
  | @deeper less task start rest entry later inner moment reaches ih =>
    intro run same
    cases same
    have started : .starts ⟨less, later, inner⟩ ∈ later.trace less inner := by
      cases less <;> exact List.mem_cons_self
    have happens := (moment.deeper reaches).trace_subset started
    rcases reaches with ⟨next, before, leads, -⟩
    have begins := (leads.startsOnly task.plan_startsOnly).1
    exact begins.written (ih _ rfl) fun closure line values same =>
      called _ closure line values happens same

/-! ## What is executed -/

/-- Only what is made of the tokens is executed. -/
def writtenDiscipline (tokens : List Token) : Discipline where
  place _ _ := True
  code := Stmt.Written tokens .declaration
  base := 0
  place_mono _ _ := trivial
  place_of_lt _ _ _ := trivial
  place_new _ := trivial
  code_parts := Stmt.Written.of_mem_parts

theorem writtenDiscipline_holds_initial (source : Source) (sink : Sink) (clock : Clock) :
    (writtenDiscipline tokens).Holds (.initial source sink clock) := by
  refine ⟨⟨Nat.zero_le _, fun _ _ _ _ _ _ => trivial, ?_⟩, trivial⟩
  intro id scope name value _ found bound
  rcases (Scopes.of_getElem?_initial found).2.2 name value bound with ⟨primitive, rfl⟩
  exact trivial

theorem programTrace_written {fuel : Nat} {statements : List Stmt} {machine : Machine}
    (written : ∀ statement ∈ statements, statement.Written tokens .declaration)
    (holds : (writtenDiscipline tokens).Holds machine) {run : Run}
    (happens : .starts run ∈ programTrace fuel statements machine) : run.task.Written tokens := by
  have governed := interpret_governed fuel statements written holds
  have outer : (programPlan statements).StartsOnly False fun _ task => task.Written tokens := by
    refine (programPlan_startsOnly statements).mono id ?_
    rintro entry task ⟨-, statement, mem, rfl⟩
    exact written statement mem
  rcases Moment.of_mem_trace happens with ⟨runs, moment, head⟩
  refine moment.written outer ?_ run (head run rfl)
  intro run closure line values happens same
  have admitted := (governed.fits _ happens).2
  rw [same] at admitted
  exact admitted.1.1

/-! ## Sessions -/

namespace Session

/-- The tokens that a step is given. -/
def Step.given : Step → List Token
  | .run source | .force source => (scanned source).1
  | .forceTokens tokens => tokens
  | .clear => []

theorem Step.statements_written (step : Step) (session : Session) (among : step.given ⊆ tokens) :
    ∀ statement ∈ step.statements session, statement.Written tokens .declaration := by
  intro statement mem
  cases step with
  | run source =>
    rw [statements] at mem
    split at mem
    · cases mem
    · exact parse_written among statement mem
  | force source => exact parse_written among statement mem
  | forceTokens own => exact parse_written among statement mem
  | clear => cases mem

theorem afterAll_written {session : Session}
    (holds : (writtenDiscipline tokens).Holds session.machine) {steps : List (Nat × Step)}
    (among : ∀ step ∈ steps, step.2.given ⊆ tokens) :
    (writtenDiscipline tokens).Holds (session.afterAll steps).machine := by
  induction steps generalizing session with
  | nil => exact holds
  | cons step rest ih =>
    have written := step.2.statements_written session (among step List.mem_cons_self)
    have after := (interpret_governed step.1 (step.2.statements session) written holds).holds
    rw [← Step.machine_perform] at after
    exact ih after fun other mem => among other (List.mem_cons_of_mem _ mem)

end Session

/-- The operator of an expression is the one that a token stands for, of one of the kinds that can
stand there.  The operator token that the tree was made of is the one of kind `op.kind` and lexeme
`mark`, since `op.kind` is the only kind that stands for `op`. -/
def Expr.HasOperatorOf (tokens : List Token) : Expr → Prop
  | .unary op mark _ => ∃ token ∈ tokens, token.toLexeme = mark ∧
      token.kind ∈ [.minus, .bang] ∧ UnaryOp.ofKind? token.kind = some op
  | .operation _ (.logical op) mark _ => ∃ token ∈ tokens, token.toLexeme = mark ∧
      token.kind ∈ [.and, .or] ∧ Operator.ofKind? token.kind = some (.logical op)
  | .operation _ (.binary op) mark _ => ∃ token ∈ tokens, token.toLexeme = mark ∧
      token.kind ∈
        [.star, .slash, .plus, .minus, .greater, .greaterEqual, .less, .lessEqual, .equalEqual,
        .bangEqual] ∧ Operator.ofKind? token.kind = some (.binary op)
  | _ => True

theorem Expr.Written.hasOperatorOf {expression : Expr} (written : expression.Written tokens) :
    expression.HasOperatorOf tokens := by
  cases written with
  | @operation left op right token mem isOp _ _ =>
    have kind := Operator.ofKind?_eq_some_iff.1 isOp
    cases op with
    | binary op =>
      refine ⟨token, mem, rfl, ?_, isOp⟩
      rw [kind]
      cases op <;> simp [Operator.kind]
    | logical op =>
      refine ⟨token, mem, rfl, ?_, isOp⟩
      rw [kind]
      cases op <;> simp [Operator.kind]
  | @unary op operand token mem isOp _ =>
    refine ⟨token, mem, rfl, ?_, isOp⟩
    rw [UnaryOp.ofKind?_eq_some_iff.1 isOp]
    cases op <;> simp [UnaryOp.kind]
  | _ => exact trivial

/-- Whatever tokens a session was given and whatever was wrong with them, every expression that is
evaluated in its next step has the operator of a token that was given then or before. -/
theorem evaluated_operators_written (source : Source) (sink : Sink) (clock : Clock)
    (earlier : List (Nat × Session.Step)) (fuel : Nat) (step : Session.Step) (run : Run)
    (expression : Expr)
    (happens : .starts run ∈ programTrace fuel
      (step.statements ((Session.initial source sink clock).afterAll earlier))
        ((Session.initial source sink clock).afterAll earlier).machine)
    (evaluates : run.task = .evaluate expression) :
    expression.HasOperatorOf ((earlier.map Prod.snd ++ [step]).flatMap Session.Step.given) := by
  have among : ∀ other ∈ earlier.map Prod.snd ++ [step],
      other.given ⊆ (earlier.map Prod.snd ++ [step]).flatMap Session.Step.given := by
    intro other mem token memToken
    exact List.mem_flatMap.2 ⟨other, mem, memToken⟩
  have amongEarlier := fun other (mem : other ∈ earlier) =>
    among other.2 (List.mem_append_left _ (List.mem_map_of_mem mem))
  have start :
      (writtenDiscipline ((earlier.map Prod.snd ++ [step]).flatMap Session.Step.given)).Holds
      (Session.initial source sink clock).machine :=
        writtenDiscipline_holds_initial source sink clock
  have holds := Session.afterAll_written start amongEarlier
  have now := step.statements_written ((Session.initial source sink clock).afterAll earlier)
    (among step (List.mem_append_right _ (List.mem_singleton_self step)))
  have written := programTrace_written now holds happens
  rw [evaluates] at written
  exact Expr.Written.hasOperatorOf written

/-- A function among tokens with a fault: `) ; fun f() { return !nil and nil == nil; }`. -/
def functionAfterFault : List Token :=
  [Kind.rightParen, .semicolon, .fun, .identifier, .leftParen, .rightParen, .leftBrace, .return,
    .bang, .nil, .and,
    .nil, .equalEqual, .nil, .semicolon, .rightBrace].map fun kind => ⟨⟨"f", 1⟩, kind⟩

/-- A call of the function, for a later step. -/
def callOfFunction : List Token :=
  [Kind.identifier, .leftParen, .rightParen, .semicolon].map fun kind => ⟨⟨"f", 2⟩, kind⟩

theorem evaluated_operators_written_callOfFunction :
    let earlier := [(20, Session.Step.forceTokens functionAfterFault)]
    let session := (Session.initial {} {} { time := fun _ => 0 }).afterAll earlier
    let operation := Expr.operation (.unary .not ⟨"f", 1⟩ (.literal .nil)) (.logical .and) ⟨"f", 1⟩
      (.operation (.literal .nil) (.binary .equal) ⟨"f", 1⟩ (.literal .nil))
    (parse functionAfterFault).2.length = 1 ∧
    (∃ run,
      .starts run ∈ programTrace 20 (Session.Step.statements session (.forceTokens callOfFunction))
        session.machine ∧ run.task = .evaluate operation) ∧
      operation.HasOperatorOf (functionAfterFault ++ callOfFunction) := by
  intro earlier session operation
  have reached : ∃ run, .starts run ∈ programTrace 20
      (Session.Step.statements session (.forceTokens callOfFunction)) session.machine ∧
        run.task = .evaluate operation := by
    refine ⟨_, List.mem_of_getElem? (i := 13) (by rfl), ?_⟩
    rfl
  rcases reached with ⟨run, happens, evaluates⟩
  have written :=
    evaluated_operators_written {} {} { time := fun _ => 0 } earlier 20
      (.forceTokens callOfFunction) run
    operation happens evaluates
  exact ⟨rfl, ⟨run, happens, evaluates⟩, written⟩

end Lox
