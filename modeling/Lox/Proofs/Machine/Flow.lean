import Lox.Proofs.Machine.Discipline

/-!
# The flow of values

A task hands on only such values as it was given, has looked up or has made, and executes only
statements that it is made of.  What is known of values and of statements, whatever it is, is then
known of all that a task plans.

A *flow* is such a knowledge.  It grows with a world, which tells how far the run has come: how many
scopes exist, or which functions were declared.

* `Plan.Flows`: a plan passes only known values to the acts and the tasks in it, if acts and tasks
  give known values.
* `Task.plan_flows`, `programPlan_flows`: the plans of tasks and of programs do so, for every flow.
-/

namespace Lox

open Plan

/-- What is known of the values and the statements of a run. -/
structure Flow where
  /-- How far the run has come. -/
  World : Type
  le : World → World → Prop
  le_refl : ∀ world, le world world
  le_trans : ∀ {world middle later}, le world middle → le middle later → le world later
  /-- A value that the run may have. -/
  knows : World → Value → Prop
  knows_mono : ∀ {world later value}, le world later → knows world value → knows later value
  knows_plain : ∀ {world value}, (∀ closure, value ≠ .callable (.function closure)) →
    knows world value
  /-- A statement that the run may execute. -/
  code : Stmt → Prop
  code_parts : ∀ {statement part}, code statement → part ∈ statement.parts → code part
  code_declaration : ∀ {world closure}, knows world (.callable (.function closure)) →
    code closure.declaration
  /-- The run may make functions. -/
  declares : Prop

namespace Flow

variable (F : Flow)

/-- Only known values are passed to an act. -/
def Permits (world : F.World) {α : Type} : Act α → Prop
  | .assign _ value | .define _ value | .callee _ value => F.knows world value
  | .declare name params body => F.declares ∧ F.code (.function name params body)
  | _ => True

/-- The value that an act gives is known. -/
def Yields (world : F.World) : {α : Type} → Act α → α → Prop
  | _, .lookup _, value | _, .declare _ _ _, value | _, .unary _ _ _, value
  | _, .binary _ _ _ _, value
  | _, .native _ _ _, value => F.knows world value
  | _, .callee _ _, callable => F.knows world (.callable callable)
  | _, .assign _ _, _ | _, .define _ _, _ | _, .arity _ _ _, _ | _, .print _, _
  | _, .fail _ _, _ => True

/-- A new scope is in the scope of a known function, and only known values are bound in it. -/
def Grants (world : F.World) : Entry → Prop
  | .frame enclosing bindings =>
    (∃ closure, F.knows world (.callable (.function closure)) ∧ closure.scope = enclosing) ∧
      ∀ name value, bindings.get? name = some value → F.knows world value
  | _ => True

/-- Only known values are passed to a task, and it executes known statements. -/
def Admits (world : F.World) : Task → Prop
  | .evaluate _ | .evaluateAll _ | .evaluateOption _ => True
  | .invoke callable _ arguments =>
    F.knows world (.callable callable) ∧ ∀ value ∈ arguments, F.knows world value
  | .execute statement => F.code statement
  | .executeAll statements => ∀ statement ∈ statements, F.code statement
  | .loop _ body => F.code body

/-- The values that a task gives are known. -/
def Gives (world : F.World) : (task : Task) → task.Result → Prop
  | .evaluate _, value | .evaluateOption _, value | .invoke _ _ _, value => F.knows world value
  | .evaluateAll _, values => ∀ value ∈ values, F.knows world value
  | .execute _, signal | .executeAll _, signal | .loop _ _, signal => F.knows world signal.result

variable {F}

theorem knows_nil {world : F.World} : F.knows world .nil := F.knows_plain fun _ => Value.noConfusion

end Flow

namespace Plan

variable {α β : Type} {F : Flow} {world : F.World}

/-- Only known values are passed to the acts and the tasks of a plan, and its value is of the given
kind.  What is known of a value stays known. -/
def Flows (F : Flow) (Good : F.World → α → Prop) : Plan α → F.World → Prop
  | .done value, world => Good world value
  | .act action next, world =>
    F.Permits world action ∧
      ∀ later value, F.le world later → F.Yields later action value →
        (next value).Flows F Good later
  | .start entry task next, world =>
    F.Grants world entry ∧ F.Admits world task ∧
      ∀ later result, F.le world later → F.Gives later task result →
        (next result).Flows F Good later

variable {Good : F.World → α → Prop} {Fine : F.World → β → Prop}

theorem Flows.bind {plan : Plan α} {f : α → Plan β} (flows : plan.Flows F Good world)
    (further : ∀ later value, F.le world later → Good later value → (f value).Flows F Fine later) :
    (plan >>= f).Flows F Fine world := by
  induction plan generalizing world with
  | done value => exact further world value (F.le_refl world) flows
  | act action next ih =>
    refine ⟨flows.1, fun later value le yields => ?_⟩
    exact ih value (flows.2 later value le yields) fun last value le' =>
      further last value (F.le_trans le le')
  | start entry task next ih =>
    refine ⟨flows.1, flows.2.1, fun later result le gives => ?_⟩
    exact ih result (flows.2.2 later result le gives) fun last value le' =>
      further last value (F.le_trans le le')

theorem flows_pure {value : α} (good : Good world value) :
    (pure value : Plan α).Flows F Good world := good

theorem flows_perform (action : Act α) (permitted : F.Permits world action) :
    (perform action).Flows F (fun world value => F.Yields world action value) world :=
  ⟨permitted, fun _ _ _ yields => yields⟩

theorem flows_valueOf (expression : Expr) : (valueOf expression).Flows F F.knows world :=
  ⟨trivial, trivial, fun _ _ _ known => known⟩

theorem flows_valueOfOption (expression : Option Expr) :
    (valueOfOption expression).Flows F F.knows world :=
  ⟨trivial, trivial, fun _ _ _ known => known⟩

theorem flows_valuesOf (expressions : List Expr) :
    (valuesOf expressions).Flows F
    (fun world values => ∀ value ∈ values, F.knows world value) world :=
  ⟨trivial, trivial, fun _ _ _ known => known⟩

theorem flows_signalOf {statement : Stmt} (code : F.code statement) :
    (signalOf statement).Flows F (fun world signal => F.knows world signal.result) world :=
  ⟨trivial, code, fun _ _ _ known => known⟩

theorem flows_start {entry : Entry} {task : Task} (granted : F.Grants world entry)
    (admitted : F.Admits world task) :
    (start entry task done).Flows F (fun world result => F.Gives world task result) world :=
  ⟨granted, admitted, fun _ _ _ gives => gives⟩

end Plan

variable {F : Flow} {world : F.World}

theorem Expr.plan_flows (expression : Expr) : expression.plan.Flows F F.knows world := by
  cases expression with
  | literal value =>
    apply F.knows_plain
    cases value <;> exact fun _ => Value.noConfusion
  | «variable» name => exact flows_perform (.lookup name) trivial
  | grouping inner => exact flows_valueOf inner
  | assign name value =>
    refine (flows_valueOf value).bind fun _ result _ known => ?_
    refine (flows_perform (.assign name result) known).bind fun _ _ le _ => ?_
    exact flows_pure (F.knows_mono le known)
  | unary op mark operand =>
    refine (flows_valueOf operand).bind fun _ result _ _ => ?_
    exact flows_perform (.unary op mark.line result) trivial
  | operation left op mark right =>
    cases op with
    | binary op =>
      refine (flows_valueOf left).bind fun _ first _ _ => ?_
      refine (flows_valueOf right).bind fun _ second _ _ => ?_
      exact flows_perform (.binary op mark.line first second) trivial
    | logical op =>
      refine (flows_valueOf left).bind fun _ first _ known => ?_
      split
      · exact flows_pure known
      · exact flows_valueOf right
  | call callee paren arguments =>
    refine (flows_valueOf callee).bind fun _ value _ known => ?_
    refine (flows_perform (.callee paren.line value) known).bind
      fun _ callable _ knownCallable => ?_
    refine (flows_valuesOf arguments).bind fun _ values le knownValues => ?_
    refine (flows_perform (.arity paren.line callable values) trivial).bind fun _ _ le' _ => ?_
    refine flows_start trivial ⟨F.knows_mono (F.le_trans le le') knownCallable, ?_⟩
    intro value mem
    exact F.knows_mono le' (knownValues value mem)

theorem Stmt.plan_flows {statement : Stmt} (code : F.code statement)
    (declares : ∀ name params body, statement = .function name params body → F.declares) :
    statement.plan.Flows F (fun world signal => F.knows world signal.result) world := by
  have parts := fun part (mem : part ∈ statement.parts) => F.code_parts code mem
  cases statement with
  | expression operand => exact (flows_valueOf operand).bind fun _ _ _ _ => Flow.knows_nil
  | print operand =>
    refine (flows_valueOf operand).bind fun _ value _ _ => ?_
    exact (flows_perform (.print value.text) trivial).bind fun _ _ _ _ => Flow.knows_nil
  | var name initializer =>
    refine (flows_valueOfOption initializer).bind fun _ value _ known => ?_
    exact (flows_perform (.define name value) known).bind fun _ _ _ _ => Flow.knows_nil
  | function name params body =>
    have permitted := declares name params body rfl
    refine (flows_perform (.declare name params body) ⟨permitted, code⟩).bind
      fun _ value _ known => ?_
    exact (flows_perform (.define name value) known).bind fun _ _ _ _ => Flow.knows_nil
  | block statements => exact flows_start trivial parts
  | «if» condition thenBranch elseBranch =>
    refine (flows_valueOf condition).bind fun _ value _ _ => ?_
    split
    · exact flows_signalOf (parts thenBranch List.mem_cons_self)
    · cases elseBranch with
      | none => exact Flow.knows_nil
      | some other => exact flows_signalOf (parts other (by simp [Stmt.parts]))
  | «while» condition body => exact flows_start trivial (parts body List.mem_cons_self)
  | «break» keyword => exact Flow.knows_nil
  | «return» keyword value => exact (flows_valueOfOption value).bind fun _ _ _ known => known

/-- A task that has known values only passes known values on. -/
theorem Task.plan_flows {task : Task} (admitted : F.Admits world task)
    (declares : ∀ name params body, task = .execute (.function name params body) → F.declares) :
    task.plan.Flows F (fun world result => F.Gives world task result) world := by
  cases task with
  | evaluate expression => exact expression.plan_flows
  | evaluateAll expressions =>
    cases expressions with
    | nil => exact fun _ mem => absurd mem List.not_mem_nil
    | cons expression rest =>
      refine (flows_valueOf expression).bind fun _ value _ known => ?_
      refine (flows_valuesOf rest).bind fun _ values le knownValues => ?_
      intro other mem
      rcases List.mem_cons.1 mem with rfl | later
      · exact F.knows_mono le known
      · exact knownValues other later
  | evaluateOption expression =>
    cases expression with
    | none => exact Flow.knows_nil
    | some expression => exact flows_valueOf expression
  | invoke callable line arguments =>
    cases callable with
    | native primitive => exact flows_perform (.native primitive line arguments) trivial
    | function closure =>
      have granted :
          F.Grants world (.frame closure.scope (.ofArguments closure.params arguments)) := by
        refine ⟨⟨closure, admitted.1, rfl⟩, ?_⟩
        intro name value bound
        exact admitted.2 value (Bindings.mem_of_get?_ofArguments bound)
      have body : F.Admits world (.executeAll closure.body) :=
        fun part mem => F.code_parts (F.code_declaration admitted.1) mem
      exact ⟨granted, body, fun _ _ _ known => known⟩
  | execute statement =>
    apply Stmt.plan_flows admitted
    intro name params body same
    exact declares name params body (congrArg Task.execute same)
  | executeAll statements =>
    cases statements with
    | nil => exact Flow.knows_nil
    | cons statement rest =>
      refine (flows_signalOf (admitted statement List.mem_cons_self)).bind
        fun _ signal _ known => ?_
      cases signal with
      | completed =>
        exact flows_start trivial fun other mem => admitted other (List.mem_cons_of_mem _ mem)
      | broke keyword => exact Flow.knows_nil
      | returned keyword value => exact known
  | loop condition body =>
    refine (flows_valueOf condition).bind fun _ value _ _ => ?_
    split
    · refine (flows_signalOf admitted).bind fun _ signal _ known => ?_
      cases signal with
      | completed => exact flows_start trivial admitted
      | broke keyword => exact Flow.knows_nil
      | returned keyword value => exact known
    · exact Flow.knows_nil

theorem programPlan_flows {statements : List Stmt}
    (code : ∀ statement ∈ statements, F.code statement) :
    (programPlan statements).Flows F (fun _ _ => True) world := by
  induction statements generalizing world with
  | nil => exact trivial
  | cons statement rest ih =>
    refine (flows_signalOf (code statement List.mem_cons_self)).bind fun _ signal _ _ => ?_
    cases signal with
    | completed => exact ih fun other mem => code other (List.mem_cons_of_mem _ mem)
    | broke keyword => exact flows_perform (.fail keyword.line .breakOutsideLoop) trivial
    | returned keyword value =>
      exact flows_perform (.fail keyword.line .returnOutsideFunction) trivial

end Lox
