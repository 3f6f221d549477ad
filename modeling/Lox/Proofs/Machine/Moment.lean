import Lox.Proofs.Machine.Trace

/-!
# Moments of a run

A trace tells what happens in a run, but not which tasks are still in progress when it happens.  A
*moment* of a run is a machine that the run passes through, together with the runs that have been
started and are not over then, the latest one first.

* `Task.Begins`: which tasks a task can start, and how.  All that is said of the tasks of a run is
  derived from it.
* `Plan.Leads`, `Plan.Visits`: how far a plan has been followed, with the machine there.
* `Moment.of_mem_trace`: all that happens in a run happens at a moment of it.
* `Moment.trace_subset`: what happens in one of the runs in progress happens in the whole.
* `Moment.halts`: a halt of one of the runs in progress is the halt of the whole.
-/

namespace Lox

open Plan

/-! ## Which tasks a task starts -/

/-- The expressions that the value of an expression is computed from, the arguments of a call
apart. -/
def Expr.operands : Expr → List Expr
  | .assign _ value => [value]
  | .operation left _ _ right => [left, right]
  | .unary _ _ operand => [operand]
  | .call callee _ _ => [callee]
  | .grouping inner => [inner]
  | .literal _ | .variable _ => []

/-- A task can start another one, in this way. -/
inductive Task.Begins : Task → Entry → Task → Prop
  | operand {whole operand} : operand ∈ whole.operands →
    Begins (.evaluate whole) .plain (.evaluate operand)
  | arguments {callee paren arguments} :
      Begins (.evaluate (.call callee paren arguments)) .plain (.evaluateAll arguments)
  | call {callee paren arguments callable values} :
      Begins (.evaluate (.call callee paren arguments)) (.call paren.line)
        (.invoke callable paren.line values)
  | argument {expression rest} :
    Begins (.evaluateAll (expression :: rest)) .plain (.evaluate expression)
  | otherArguments {expression rest} :
    Begins (.evaluateAll (expression :: rest)) .plain (.evaluateAll rest)
  | present {expression} : Begins (.evaluateOption (some expression)) .plain (.evaluate expression)
  | body {closure line values} : Begins (.invoke (.function closure) line values)
      (.frame closure.scope (.ofArguments closure.params values)) (.executeAll closure.body)
  | expression {operand} : Begins (.execute (.expression operand)) .plain (.evaluate operand)
  | print {operand} : Begins (.execute (.print operand)) .plain (.evaluate operand)
  | initializer {name initializer} :
    Begins (.execute (.var name initializer)) .plain (.evaluateOption initializer)
  | result {keyword value} :
    Begins (.execute (.return keyword value)) .plain (.evaluateOption value)
  | block {statements} : Begins (.execute (.block statements)) .block (.executeAll statements)
  | condition {condition thenBranch elseBranch} :
      Begins (.execute (.if condition thenBranch elseBranch)) .plain (.evaluate condition)
  | branch {condition thenBranch elseBranch branch} : branch ∈ thenBranch :: elseBranch.toList →
      Begins (.execute (.if condition thenBranch elseBranch)) .plain (.execute branch)
  | «while» {condition body} :
    Begins (.execute (.while condition body)) .plain (.loop condition body)
  | statement {statement rest} :
    Begins (.executeAll (statement :: rest)) .plain (.execute statement)
  | otherStatements {statement rest} :
    Begins (.executeAll (statement :: rest)) .plain (.executeAll rest)
  | loopCondition {condition body} : Begins (.loop condition body) .plain (.evaluate condition)
  | loopBody {condition body} : Begins (.loop condition body) .plain (.execute body)
  | again {condition body} : Begins (.loop condition body) .plain (.loop condition body)

/-- The statement declares something in the scope that it is executed in. -/
inductive Stmt.Declares : Stmt → Prop
  | var {name initializer} : Declares (.var name initializer)
  | function {name params body} : Declares (.function name params body)
  | branch {condition thenBranch elseBranch branch} : branch ∈ thenBranch :: elseBranch.toList →
    Declares branch →
      Declares (.if condition thenBranch elseBranch)
  | «while» {condition body} : Declares body → Declares (.while condition body)

/-- The task declares something in the scope that it is started in. -/
def Task.Declares : Task → Prop
  | .execute statement => statement.Declares
  | .executeAll statements => ∃ statement ∈ statements, statement.Declares
  | .loop _ body => body.Declares
  | .evaluate _ | .evaluateAll _ | .evaluateOption _ | .invoke _ _ _ => False

/-- What the acts of a plan can be, by whether it declares anything: an act that only makes the
program fail is for a stray signal. -/
def Act.IsPlanned {α : Type} (declares : Prop) : Act α → Prop
  | .fail _ fault => fault = .breakOutsideLoop ∨ fault = .returnOutsideFunction
  | .define _ _ | .declare _ _ _ => declares
  | _ => True

namespace Plan

variable {α β : Type} {declares : Prop} {can : Entry → Task → Prop}

/-- A plan starts only such tasks and declares something only if it may, whatever values there are
on the way. -/
def StartsOnly (declares : Prop) (can : Entry → Task → Prop) : Plan α → Prop
  | .done _ => True
  | .act action next => action.IsPlanned declares ∧ ∀ value, (next value).StartsOnly declares can
  | .start entry task next => can entry task ∧ ∀ result, (next result).StartsOnly declares can

theorem StartsOnly.bind {plan : Plan α} {f : α → Plan β} (only : plan.StartsOnly declares can)
    (further : ∀ value, (f value).StartsOnly declares can) :
    (plan >>= f).StartsOnly declares can := by
  induction plan with
  | done value => exact further value
  | act action next ih => exact ⟨only.1, fun value => ih value (only.2 value)⟩
  | start entry task next ih => exact ⟨only.1, fun result => ih result (only.2 result)⟩

theorem IsPlanned.mono {could : Prop} {action : Act α} (planned : action.IsPlanned declares)
    (may : declares → could) : action.IsPlanned could := by
  cases action with
  | define name value => exact may planned
  | declare name params body => exact may planned
  | fail line fault => exact planned
  | _ => exact trivial

theorem StartsOnly.mono {could : Prop} {such : Entry → Task → Prop} {plan : Plan α}
    (only : plan.StartsOnly declares can) (may : declares → could)
    (imp : ∀ entry task, can entry task → such entry task) : plan.StartsOnly could such := by
  induction plan with
  | done value => exact trivial
  | act action next ih => exact ⟨IsPlanned.mono only.1 may, fun value => ih value (only.2 value)⟩
  | start entry task next ih =>
    exact ⟨imp entry task only.1, fun result => ih result (only.2 result)⟩

theorem startsOnly_perform (action : Act α) (planned : action.IsPlanned declares) :
    (perform action).StartsOnly declares can :=
  ⟨planned, fun _ => trivial⟩

theorem startsOnly_start {entry : Entry} {task : Task} (such : can entry task) :
    (start entry task done).StartsOnly declares can :=
  ⟨such, fun _ => trivial⟩

end Plan

theorem Expr.plan_startsOnly (expression : Expr) :
    expression.plan.StartsOnly False (Task.evaluate expression).Begins := by
  cases expression with
  | literal value => exact trivial
  | «variable» name => exact startsOnly_perform (.lookup name) trivial
  | grouping inner => exact startsOnly_start (.operand List.mem_cons_self)
  | assign name value =>
    refine (startsOnly_start (.operand List.mem_cons_self)).bind fun result => ?_
    exact (startsOnly_perform (.assign name result) trivial).bind fun _ => trivial
  | unary op mark operand =>
    refine (startsOnly_start (.operand List.mem_cons_self)).bind fun result => ?_
    exact startsOnly_perform (.unary op mark.line result) trivial
  | operation left op mark right =>
    have second : right ∈ (Expr.operation left op mark right).operands := by simp [operands]
    cases op with
    | binary op =>
      refine (startsOnly_start (.operand List.mem_cons_self)).bind fun first => ?_
      refine (startsOnly_start (.operand second)).bind fun last => ?_
      exact startsOnly_perform (.binary op mark.line first last) trivial
    | logical op =>
      refine (startsOnly_start (.operand List.mem_cons_self)).bind fun first => ?_
      split
      · exact trivial
      · exact startsOnly_start (.operand second)
  | call callee paren arguments =>
    refine (startsOnly_start (.operand List.mem_cons_self)).bind fun value => ?_
    refine (startsOnly_perform (.callee paren.line value) trivial).bind fun callable => ?_
    refine (startsOnly_start .arguments).bind fun values => ?_
    refine (startsOnly_perform (.arity paren.line callable values) trivial).bind fun _ => ?_
    exact startsOnly_start .call

theorem Stmt.plan_startsOnly (statement : Stmt) :
    statement.plan.StartsOnly statement.Declares (Task.execute statement).Begins := by
  cases statement with
  | expression operand => exact (startsOnly_start .expression).bind fun _ => trivial
  | print operand =>
    refine (startsOnly_start .print).bind fun value => ?_
    exact (startsOnly_perform (.print value.text) trivial).bind fun _ => trivial
  | var name initializer =>
    refine (startsOnly_start .initializer).bind fun value => ?_
    exact (startsOnly_perform (.define name value) .var).bind fun _ => trivial
  | function name params body =>
    refine (startsOnly_perform (.declare name params body) .function).bind fun value => ?_
    exact (startsOnly_perform (.define name value) .function).bind fun _ => trivial
  | block statements => exact startsOnly_start .block
  | «if» condition thenBranch elseBranch =>
    refine (startsOnly_start .condition).bind fun value => ?_
    split
    · exact startsOnly_start (.branch List.mem_cons_self)
    · cases elseBranch with
      | none => exact trivial
      | some other => exact startsOnly_start (.branch (by simp))
  | «while» condition body => exact startsOnly_start .while
  | «break» keyword => exact trivial
  | «return» keyword value => exact (startsOnly_start .result).bind fun _ => trivial

/-- A task starts only what it begins, and declares something only if it is made for that. -/
theorem Task.plan_startsOnly (task : Task) : task.plan.StartsOnly task.Declares task.Begins := by
  cases task with
  | evaluate expression => exact expression.plan_startsOnly
  | evaluateAll expressions =>
    cases expressions with
    | nil => exact trivial
    | cons expression rest =>
      refine (startsOnly_start .argument).bind fun _ => ?_
      exact (startsOnly_start .otherArguments).bind fun _ => trivial
  | evaluateOption expression =>
    cases expression with
    | none => exact trivial
    | some expression => exact startsOnly_start .present
  | invoke callable line arguments =>
    cases callable with
    | native primitive => exact startsOnly_perform (.native primitive line arguments) trivial
    | function closure => exact ⟨.body, fun _ => trivial⟩
  | execute statement => exact statement.plan_startsOnly
  | executeAll statements =>
    cases statements with
    | nil => exact trivial
    | cons statement rest =>
      refine (startsOnly_start .statement).bind fun signal => ?_
      cases signal with
      | completed => exact startsOnly_start .otherStatements
      | broke keyword => exact trivial
      | returned keyword value => exact trivial
  | loop condition body =>
    refine (startsOnly_start .loopCondition).bind fun _ => ?_
    split
    · refine (startsOnly_start .loopBody).bind fun signal => ?_
      cases signal with
      | completed => exact startsOnly_start .again
      | broke keyword => exact trivial
      | returned keyword value => exact trivial
    · exact trivial

/-- A program starts only its statements. -/
theorem programPlan_startsOnly (statements : List Stmt) :
    (programPlan statements).StartsOnly False fun entry task =>
      entry = .plain ∧ ∃ statement ∈ statements, task = .execute statement := by
  suffices rest : ∀ before after : List Stmt, statements = before ++ after →
      (programPlan after).StartsOnly False fun entry task =>
        entry = .plain ∧ ∃ statement ∈ statements, task = .execute statement
          from rest [] statements rfl
  intro before after
  induction after generalizing before with
  | nil => exact fun _ => trivial
  | cons statement rest ih =>
    intro same
    have mem : statement ∈ statements := by simp [same]
    refine (startsOnly_start ⟨rfl, statement, mem, rfl⟩).bind fun signal => ?_
    cases signal with
    | completed => exact ih (before ++ [statement]) (by simp [same])
    | broke keyword => exact startsOnly_perform _ (.inl rfl)
    | returned keyword value => exact startsOnly_perform _ (.inr rfl)

/-! ## How far a plan has been followed -/

namespace Plan

variable {α : Type} {run : (task : Task) → Eval task.Result} {traceOf : Task → Machine → List Event}

/-- From a plan on a machine one comes to have the other plan left to do, on the other machine. -/
inductive Leads (run : (task : Task) → Eval task.Result) :
    Plan α → Machine → Plan α → Machine → Prop
  | refl {plan machine} : Leads run plan machine plan machine
  | acted {β : Type} {action : Act β} {next machine value after left now} :
      action.perform machine = .ok value after → Leads run (next value) after left now →
      Leads run (.act action next) machine left now
  | returned {entry task next machine inner value after left now} :
      entry.enter machine = .ok inner → run task inner = .ok value after →
      Leads run (next value) (entry.leave machine after) left now →
      Leads run (.start entry task next) machine left now

/-- Following the plan passes through a machine, outside of the tasks that it starts. -/
inductive Visits (run : (task : Task) → Eval task.Result) (plan : Plan α) (machine : Machine) :
    Machine → Prop
  | onTheWay {left now} : plan.Leads run machine left now → Visits run plan machine now
  | atEnd : Visits run plan machine (machineAfter (plan.follow run machine))

theorem follow_acted {β : Type} {action : Act β} {next : β → Plan α} {machine after : Machine}
    {value : β} (performed : action.perform machine = .ok value after) :
    (act action next).follow run machine = (next value).follow run after :=
  Eval.bind_of_ok performed

theorem follow_returned {entry : Entry} {task : Task} {next : task.Result → Plan α}
    {machine inner after : Machine} {value : task.Result}
    (entered : entry.enter machine = .ok inner) (ran : run task inner = .ok value after) :
    (start entry task next).follow run machine = (next value).follow run
    (entry.leave machine after) :=
  Eval.bind_of_ok (Entry.around_of_ok entered ran)

theorem follow_halted {entry : Entry} {task : Task} {next : task.Result → Plan α}
    {machine inner after : Machine} {halt : Halt} (entered : entry.enter machine = .ok inner)
    (ran : run task inner = .error halt after) :
    (start entry task next).follow run machine = .error halt (entry.leave machine after) :=
  Eval.bind_of_error (Entry.around_of_error entered ran)

namespace Leads

variable {plan left : Plan α} {machine now : Machine}

theorem startsOnly (leads : plan.Leads run machine left now) {declares : Prop}
    {can : Entry → Task → Prop} (only : plan.StartsOnly declares can) :
    left.StartsOnly declares can := by
  induction leads with
  | refl => exact only
  | acted _ _ ih => exact ih (only.2 _)
  | returned _ _ _ ih => exact ih (only.2 _)

/-- What is left to do ends as the whole does. -/
theorem follow_eq (leads : plan.Leads run machine left now) :
    plan.follow run machine = left.follow run now := by
  induction leads with
  | refl => rfl
  | acted performed _ ih =>
    rw [follow_acted performed]
    exact ih
  | returned entered ran _ ih =>
    rw [follow_returned entered ran]
    exact ih

end Leads

namespace Visits

theorem acted {β : Type} {action : Act β} {next : β → Plan α} {machine after now : Machine}
    {value : β} (performed : action.perform machine = .ok value after)
    (visits : (next value).Visits run after now) : (act action next).Visits run machine now := by
  cases visits with
  | onTheWay leads => exact .onTheWay (.acted performed leads)
  | atEnd =>
    rw [← follow_acted performed]
    exact .atEnd

theorem returned {entry : Entry} {task : Task} {next : task.Result → Plan α}
    {machine inner after now : Machine} {value : task.Result}
    (entered : entry.enter machine = .ok inner) (ran : run task inner = .ok value after)
    (visits : (next value).Visits run (entry.leave machine after) now) :
    (start entry task next).Visits run machine now := by
  cases visits with
  | onTheWay leads => exact .onTheWay (.returned entered ran leads)
  | atEnd =>
    rw [← follow_returned entered ran]
    exact .atEnd

end Visits

/-- The plan comes to start a task, on a machine that is entered so. -/
def Reaches (run : (task : Task) → Eval task.Result) (plan : Plan α) (machine : Machine)
    (entry : Entry) (task : Task) (inner : Machine) : Prop :=
  ∃ next before, plan.Leads run machine (.start entry task next) before ∧
    entry.enter before = .ok inner

theorem Reaches.acted {β : Type} {action : Act β} {next : β → Plan α}
    {machine after inner : Machine} {value : β} {entry : Entry} {task : Task}
    (performed : action.perform machine = .ok value after)
    (reaches : (next value).Reaches run after entry task inner) :
    (act action next).Reaches run machine entry task inner := by
  rcases reaches with ⟨further, before, leads, entered⟩
  exact ⟨further, before, .acted performed leads, entered⟩

theorem Reaches.returned {entry other : Entry} {task later : Task} {next : task.Result → Plan α}
    {machine inner after last : Machine} {value : task.Result}
    (entered : entry.enter machine = .ok inner) (ran : run task inner = .ok value after)
    (reaches : (next value).Reaches run (entry.leave machine after) other later last) :
    (start entry task next).Reaches run machine other later last := by
  rcases reaches with ⟨further, before, leads, enteredLater⟩
  exact ⟨further, before, .returned entered ran leads, enteredLater⟩

theorem Leads.trace_subset {plan left : Plan α} {machine now : Machine}
    (leads : plan.Leads run machine left now) :
    left.trace run traceOf now ⊆ plan.trace run traceOf machine := by
  induction leads with
  | refl => exact List.Subset.refl _
  | acted performed _ ih =>
    simp only [trace, performed]
    exact List.Subset.trans ih (List.subset_cons_self ..)
  | returned entered ran _ ih =>
    simp only [trace, entered, ran]
    exact List.Subset.trans ih (List.subset_append_of_subset_right _ (List.subset_cons_self ..))

theorem Reaches.trace_subset {plan : Plan α} {machine inner : Machine} {entry : Entry} {task : Task}
    (reaches : plan.Reaches run machine entry task inner) :
    traceOf task inner ⊆ plan.trace run traceOf machine := by
  rcases reaches with ⟨next, before, leads, entered⟩
  refine List.Subset.trans ?_ leads.trace_subset
  simp only [trace, entered]
  exact List.subset_append_left ..

/-- What happens when a plan is followed happens on a machine that it visits, or in a task that it
starts. -/
theorem visits_or_reaches_of_mem_trace {plan : Plan α} {machine : Machine} {event : Event}
    (mem : event ∈ plan.trace run traceOf machine) :
    (∃ now, event = .passes now ∧ plan.Visits run machine now) ∨
      ∃ entry task inner, plan.Reaches run machine entry task inner ∧
        event ∈ traceOf task inner := by
  have course := plan.course run traceOf machine
  generalize plan.trace run traceOf machine = events at mem course
  generalize ended : plan.follow run machine = result at course
  induction course with
  | done => cases mem
  | acted performed _ ih =>
    rcases List.mem_cons.1 mem with rfl | later
    · exact .inl ⟨_, rfl, .onTheWay (.acted performed .refl)⟩
    · rw [follow_acted performed] at ended
      rcases ih later ended with ⟨now, same, visits⟩ | ⟨entry, task, inner, reaches, inside⟩
      · exact .inl ⟨now, same, visits.acted performed⟩
      · exact .inr ⟨entry, task, inner, reaches.acted performed, inside⟩
  | @stopped β action next machine halt after performed =>
    rw [List.mem_singleton.1 mem]
    have last : after = machineAfter ((act action next).follow run machine) := by rw [ended]; rfl
    rw [last]
    exact .inl ⟨_, rfl, .atEnd⟩
  | refused => cases mem
  | returned entered ran _ ih =>
    rcases List.mem_append.1 mem with inside | later
    · exact .inr ⟨_, _, _, ⟨_, _, .refl, entered⟩, inside⟩
    · rcases List.mem_cons.1 later with rfl | later
      · exact .inl ⟨_, rfl, .onTheWay (.returned entered ran .refl)⟩
      · rw [follow_returned entered ran] at ended
        rcases ih later ended with ⟨now, same, visits⟩ | ⟨entry, task, inner, reaches, inside⟩
        · exact .inl ⟨now, same, visits.returned entered ran⟩
        · exact .inr ⟨entry, task, inner, reaches.returned entered ran, inside⟩
  | @halted entry task next machine inner halt after entered ran =>
    rcases List.mem_append.1 mem with inside | last
    · exact .inr ⟨_, _, _, ⟨_, _, .refl, entered⟩, inside⟩
    · rw [List.mem_singleton.1 last]
      have last : entry.leave machine after =
          machineAfter ((start entry task next).follow run machine) := by
        rw [ended]
        rfl
      rw [last]
      exact .inl ⟨_, rfl, .atEnd⟩

/-- A plan that halts does so at an act, at a task that is refused, or in a task that halts. -/
theorem exists_of_follow_eq_error {plan : Plan α} {machine after : Machine} {halt : Halt}
    (halted : plan.follow run machine = .error halt after) :
    (∃ (β : Type) (action : Act β) (next : β → Plan α) (before last : Machine),
      plan.Leads run machine (.act action next) before ∧ action.perform before = .error halt last) ∨
    (∃ entry task next before, plan.Leads run machine (.start entry task next) before ∧
      entry.enter before = .error halt) ∨
    ∃ entry task inner last, plan.Reaches run machine entry task inner ∧
      run task inner = .error halt last := by
  have course := plan.course run (fun _ _ => []) machine
  rw [halted] at course
  generalize ended : EStateM.Result.error halt after = result at course
  generalize plan.trace run (fun _ _ => []) machine = events at course
  clear halted
  induction course with
  | done => cases ended
  | acted performed _ ih =>
    rcases ih ended with ⟨β, action, next, before, last, leads, failed⟩ |
      ⟨entry, task, next, before, leads, refused⟩ |
      ⟨entry, task, inner, last, reaches, failed⟩
    · exact .inl ⟨β, action, next, before, last, .acted performed leads, failed⟩
    · exact .inr (.inl ⟨entry, task, next, before, .acted performed leads, refused⟩)
    · exact .inr (.inr ⟨entry, task, inner, last, reaches.acted performed, failed⟩)
  | stopped performed =>
    cases ended
    exact .inl ⟨_, _, _, _, _, .refl, performed⟩
  | refused entered =>
    cases ended
    exact .inr (.inl ⟨_, _, _, _, .refl, entered⟩)
  | returned entered ran _ ih =>
    rcases ih ended with ⟨β, action, next, before, last, leads, failed⟩ |
      ⟨entry, task, next, before, leads, refused⟩ |
      ⟨entry, task, inner, last, reaches, failed⟩
    · exact .inl ⟨β, action, next, before, last, .returned entered ran leads, failed⟩
    · exact .inr (.inl ⟨entry, task, next, before, .returned entered ran leads, refused⟩)
    · exact .inr (.inr ⟨entry, task, inner, last, reaches.returned entered ran, failed⟩)
  | halted entered ran =>
    cases ended
    exact .inr (.inr ⟨_, _, _, _, ⟨_, _, .refl, entered⟩, ran⟩)

end Plan

/-! ## Moments -/

/-- A moment when a plan is followed: the runs that are in progress, from the latest one on, and the
machine.  A run stands there with the machine that it was started on. -/
inductive Moment {α : Type} (fuel : Nat) (plan : Plan α) (machine : Machine) :
    List Run → Machine → Prop
  | own {now} : plan.Visits (Task.run fuel) machine now → Moment fuel plan machine [] now
  | first {entry task inner} : plan.Reaches (Task.run fuel) machine entry task inner →
      Moment fuel plan machine [⟨fuel, task, inner⟩] inner
  | within {less task start rest now} :
    Moment fuel plan machine (⟨less + 1, task, start⟩ :: rest) start →
      task.plan.Visits (Task.run less) start now →
      Moment fuel plan machine (⟨less + 1, task, start⟩ :: rest) now
  | deeper {less task start rest entry later inner} :
      Moment fuel plan machine (⟨less + 1, task, start⟩ :: rest) start →
      task.plan.Reaches (Task.run less) start entry later inner →
      Moment fuel plan machine (⟨less, later, inner⟩ :: ⟨less + 1, task, start⟩ :: rest) inner

namespace Moment

variable {α : Type} {fuel : Nat} {plan : Plan α} {machine : Machine}

/-- What happens in a run happens while the run is in progress. -/
theorem of_mem_task_trace {less : Nat} {task : Task} {start : Machine} {rest : List Run}
    (moment : Moment fuel plan machine (⟨less, task, start⟩ :: rest) start) {event : Event}
    (mem : event ∈ task.trace less start) :
    ∃ runs, Moment fuel plan machine runs event.machine ∧ ∀ run, event = .starts run →
      run ∈ runs.head? := by
  induction less generalizing task start rest with
  | zero =>
    rw [List.mem_singleton.1 mem]
    refine ⟨_, moment, ?_⟩
    intro run same
    cases same
    rfl
  | succ less ih =>
    rcases List.mem_cons.1 mem with rfl | inside
    · refine ⟨_, moment, ?_⟩
      intro run same
      cases same
      rfl
    · rcases visits_or_reaches_of_mem_trace inside with ⟨now, rfl, visits⟩ |
        ⟨entry, later, inner, reaches, inside⟩
      · refine ⟨_, moment.within visits, ?_⟩
        intro run same
        cases same
      · exact ih (moment.deeper reaches) inside

/-- What happens when a plan is followed happens at a moment of it. -/
theorem of_mem_trace {event : Event}
    (mem : event ∈ plan.trace (Task.run fuel) (Task.trace fuel) machine) :
    ∃ runs, Moment fuel plan machine runs event.machine ∧ ∀ run, event = .starts run →
      run ∈ runs.head? := by
  rcases visits_or_reaches_of_mem_trace mem with ⟨now, rfl, visits⟩ |
    ⟨entry, task, inner, reaches, inside⟩
  · refine ⟨[], .own visits, ?_⟩
    intro run same
    cases same
  · exact of_mem_task_trace (.first reaches) inside

/-- What happens in a run that is in progress happens in the whole. -/
theorem trace_subset {run : Run} {rest : List Run} {now : Machine}
    (moment : Moment fuel plan machine (run :: rest) now) :
    run.task.trace run.fuel run.machine ⊆ plan.trace (Task.run fuel) (Task.trace fuel) machine := by
  generalize same : run :: rest = runs at moment
  induction moment generalizing run rest with
  | own => cases same
  | first reaches =>
    cases same
    exact reaches.trace_subset
  | within _ _ ih => exact ih same
  | @deeper less task start rest entry later inner _ reaches ih =>
    cases same
    have inside :
        later.trace less inner ⊆ task.plan.trace (Task.run less) (Task.trace less) start :=
      reaches.trace_subset
    exact List.Subset.trans inside (List.Subset.trans (List.subset_cons_self ..) (ih rfl))

/-- If a run in progress halts, so does the whole. -/
theorem halts {run : Run} {rest : List Run} {now : Machine}
    (moment : Moment fuel plan machine (run :: rest) now) {halt : Halt} {after : Machine}
    (halted : run.task.run run.fuel run.machine = .error halt after) :
    ∃ last, plan.follow (Task.run fuel) machine = .error halt last := by
  generalize same : run :: rest = runs at moment
  induction moment generalizing run rest after with
  | own => cases same
  | first reaches =>
    cases same
    rcases reaches with ⟨next, before, leads, entered⟩
    rw [leads.follow_eq, follow_halted entered halted]
    exact ⟨_, rfl⟩
  | within _ _ ih => exact ih halted same
  | @deeper less task start rest entry later inner _ reaches ih =>
    cases same
    rcases reaches with ⟨next, before, leads, entered⟩
    have outer : task.run (less + 1) start = .error halt (entry.leave before after) := by
      rw [Task.run_succ, leads.follow_eq, follow_halted entered halted]
    exact ih outer rfl

end Moment

end Lox
