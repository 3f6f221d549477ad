import Lox.Proofs.Machine.ForLoop
import Lox.Proofs.Machine.RuledActs

/-!
# The evaluator follows the rules

A program that is given fuel enough ends exactly as the rules of evaluation say.

* `Evaluates.ends` and those beside it: what the rules derive is how a run ends, by induction on the
  derivation.
* `Task.derives_of_run`: a run that ends does so by the rules, by induction on the fuel.

Both need the scopes that are named to exist.
-/

namespace Lox

open Plan Eval

/-! ## Plans -/

/-- Given fuel enough, the task ends so. -/
def Task.Ends (task : Task) (machine : Machine) (final : Final task.Result) : Prop :=
  Settles (fun fuel => task.run fuel) machine final.lift

/-- Given fuel enough, the plan ends so. -/
def Plan.Arrives {α : Type} (plan : Plan α) (machine : Machine) (final : Final α) : Prop :=
  Settles (fun fuel => plan.follow (Task.run fuel)) machine final.lift

theorem Task.Ends.ofPlan {task : Task} {machine : Machine} {final : Final task.Result}
    (arrives : task.plan.Arrives machine final) : task.Ends machine final :=
  (SameEnds.of_succ task.run_zero (fun fuel => task.run_succ fuel) final.lift).2 arrives

/-- The machine that was left behind. -/
def Final.machine {α : Type} : Final α → Machine
  | .ok _ machine | .error _ machine => machine

namespace Plan.Arrives

variable {α β : Type} {machine inner after : Machine} {final : Final α}

theorem done {value : α} : (Plan.done value).Arrives machine (.ok value machine) :=
  ⟨ended_ok _ _, 0, rfl⟩

theorem act {action : Act β} {next : β → Plan α} {value : β}
    (performed : action.perform machine = .ok value after)
    (rest : (next value).Arrives after final) : (Plan.act action next).Arrives machine final := by
  obtain ⟨ended, fuel, reached⟩ := rest
  refine ⟨ended, fuel, ?_⟩
  rw [← reached]
  exact bind_of_ok performed

theorem actFails {action : Act β} {next : β → Plan α} {failure : Failure}
    (performed : action.perform machine = .error (.failure failure) after) :
    (Plan.act action next).Arrives machine (.error failure after) :=
  ⟨Final.ended_lift _, 0, bind_of_error performed⟩

/-- The act that a plan ends with. -/
theorem lastAct {action : Act α} (performed : action.perform machine = final.lift) :
    (Plan.perform action).Arrives machine final := by
  refine ⟨final.ended_lift, 0, ?_⟩
  rw [follow_perform]
  exact performed

theorem start {entry : Entry} {task : Task} {next : task.Result → Plan α} {value : task.Result}
    (entered : entry.enter machine = .ok inner) (ends : task.Ends inner (.ok value after))
    (rest : (next value).Arrives (entry.leave machine after) final) :
    (Plan.start entry task next).Arrives machine final := by
  refine (settles_bind_iff ((task.lasting).around entry) fun value => (next value).lasting).2
    (.inl ?_)
  exact ⟨value, _, (settles_around_iff entered).2 (.inl ⟨value, after, ends, rfl⟩), rest⟩

theorem startFails {entry : Entry} {task : Task} {next : task.Result → Plan α} {failure : Failure}
    (entered : entry.enter machine = .ok inner) (ends : task.Ends inner (.error failure after)) :
    (Plan.start entry task next).Arrives machine (.error failure (entry.leave machine after)) := by
  refine (settles_bind_iff ((task.lasting).around entry) fun value => (next value).lasting).2
    (.inr ?_)
  exact ⟨_, _, (settles_around_iff entered).2 (.inr ⟨_, after, ends, rfl⟩), rfl⟩

/-- The task that a plan ends with. -/
theorem lastStart (entry : Entry) {task : Task} {final : Final task.Result}
    (entered : entry.enter machine = .ok inner) (ends : task.Ends inner final) :
    (Plan.start entry task .done).Arrives machine
    (Final.onMachine (fun after => entry.leave machine after) final) := by
  cases final with
  | ok value after => exact start entered ends done
  | error failure after => exact startFails entered ends

theorem ifTrue {condition : Bool} {plan other : Plan α} (true : condition)
    (arrives : plan.Arrives machine final) :
    (if condition then plan else other).Arrives machine final := by
  rw [if_pos true]
  exact arrives

theorem ifFalse {condition : Bool} {plan other : Plan α} (false : ¬ condition)
    (arrives : other.Arrives machine final) :
    (if condition then plan else other).Arrives machine final := by
  rw [if_neg false]
  exact arrives

theorem lastPlain {task : Task} {final : Final task.Result} (ends : task.Ends machine final) :
    (Plan.start .plain task .done).Arrives machine final := by
  cases final with
  | ok value after => exact start rfl ends done
  | error failure after => exact startFails rfl ends

theorem refused {entry : Entry} {task : Task} {next : task.Result → Plan α} {failure : Failure}
    (refused : entry.enter machine = .error (.failure failure)) :
    (Plan.start entry task next).Arrives machine (.error failure machine) :=
  ⟨Final.ended_lift _, 0, bind_of_error (Entry.around_of_refused refused)⟩

end Plan.Arrives

/-- A call that leaves the count of calls in progress as it was counts itself off. -/
theorem Final.onMachine_leave_call {α : Type} {machine : Machine} {final : Final α}
    (control : Machine.SameControl { machine with depth := machine.depth + 1 } final.machine)
    (line : Nat) :
    final.onMachine (fun after => (Entry.call line).leave machine after) =
      final.atDepth machine.depth := by
  have counted : final.machine.depth - 1 = machine.depth := Nat.sub_eq_of_eq_add control.depth
  cases final with
  | ok value after =>
    exact congrArg (fun depth => EStateM.Result.ok value { after with depth }) counted
  | error failure after =>
    exact congrArg (fun depth => EStateM.Result.error failure { after with depth }) counted

/-! ## What is derived is how a run ends -/

namespace Task.Ends

/-- A task that ends with a result leaves a machine behind whose scopes exist, and so does what the
result names. -/
theorem governed {task : Task} {machine after : Machine} {value : task.Result}
    (ends : task.Ends machine (.ok value after)) (holds : existingScopes.Holds machine)
    (admitted : existingScopes.Admits machine.scopes.nextId task) :
    existingScopes.Holds after ∧ existingScopes.Gives after.scopes.nextId task value ∧
      machine.scopes.nextId ≤ after.scopes.nextId := by
  obtain ⟨-, fuel, ran⟩ := ends
  have ran : task.run fuel machine = .ok value after := ran
  have governed := Task.governed fuel task machine holds admitted
  rw [ran] at governed
  exact ⟨governed.holds, governed.good value after rfl, governed.grows.count_le⟩

theorem holds {expression : Expr} {machine after : Machine} {value : Value}
    (ends : (Task.evaluate expression).Ends machine (.ok value after))
    (holds : existingScopes.Holds machine) : existingScopes.Holds after :=
  (ends.governed holds trivial).1

theorem holds_statement {statement : Stmt} {machine after : Machine} {signal : Signal}
    (ends : (Task.execute statement).Ends machine (.ok signal after))
    (holds : existingScopes.Holds machine) : existingScopes.Holds after :=
  (ends.governed holds trivial).1

/-- However a task ends, as many calls are in progress as before it. -/
theorem sameControl {task : Task} {machine : Machine} {final : Final task.Result}
    (ends : task.Ends machine final) : machine.SameControl final.machine := by
  obtain ⟨-, fuel, ran⟩ := ends
  have control := Task.run_sameControl fuel task machine
  rw [show task.run fuel machine = final.lift from ran] at control
  cases final <;> exact control

theorem while_iff {condition : Expr} {body : Stmt} {machine : Machine} {final : Final Signal} :
    (Task.execute (.while condition body)).Ends machine final ↔
    (Task.loop condition body).Ends machine final :=
  SameEnds.of_succ rfl (fun _ => rfl) final.lift

theorem ofLoop {condition : Expr} {body : Stmt} {machine : Machine} {final : Final Signal}
    (arrives : (Task.loop condition body).plan.Arrives machine final) :
    (Task.execute (.while condition body)).Ends machine final :=
  while_iff.2 (.ofPlan arrives)

theorem present {expression : Expr} {machine : Machine} {final : Final Value}
    (ends : (Task.evaluate expression).Ends machine final) :
    (Task.evaluateOption (some expression)).Ends machine final :=
  .ofPlan (.lastPlain ends)

theorem absent {machine : Machine} : (Task.evaluateOption none).Ends machine (.ok .nil machine) :=
  .ofPlan .done

end Task.Ends

/-- What a callee and its arguments name still exists when the call begins. -/
theorem existingScopes_admits_invoke {callee : Expr} {arguments : List Expr}
    {machine middle after : Machine} {callable : Callable} {values : List Value}
    (holds : existingScopes.Holds machine)
    (first : (Task.evaluate callee).Ends machine (.ok (.callable callable) middle))
    (second : (Task.evaluateAll arguments).Ends middle (.ok values after)) (line : Nat) :
    existingScopes.Holds after ∧
    existingScopes.Admits after.scopes.nextId (.invoke callable line values) := by
  obtain ⟨holdsMiddle, known, -⟩ := first.governed holds trivial
  obtain ⟨holdsAfter, knownValues, le⟩ := second.governed holdsMiddle trivial
  exact ⟨holdsAfter, Discipline.knows_mono le known, knownValues⟩

/-- A function is entered with its parameters bound. -/
theorem Entry.enter_of_setsAll {closure : Closure} {arguments : List Value} {bindings : Bindings}
    {machine : Machine} (sets : Bindings.SetsAll closure.params arguments [] bindings) :
    (Entry.frame closure.scope (.ofArguments closure.params arguments)).enter machine =
      .ok (machine.opening closure.scope bindings) := by
  obtain ⟨-, rfl⟩ := Bindings.setsAll_iff.1 sets
  rfl

mutual

theorem Evaluates.ends {s : Machine} {expression : Expr} {final : Final Value}
    (evaluates : Evaluates s expression final) (holds : existingScopes.Holds s) :
    (Task.evaluate expression).Ends s final := by
  match evaluates with
  | .literal denotes =>
    obtain rfl := Literal.denotes_iff.1 denotes
    exact .ofPlan .done
  | .grouping inner => exact .ofPlan (.lastPlain (inner.ends holds))
  | .variable means => exact .ofPlan (.act (lookup_of_means holds.acyclic means) .done)
  | .undefined never =>
    exact .ofPlan (.actFails (lookup_of_unbound holds.acyclic (Machine.not_finds never)))
  | .assign value means defines =>
    have ends := value.ends holds
    exact .ofPlan
      (.start rfl ends (.act (assign_of_defines (ends.holds holds).acyclic means defines) .done))
  | .assignUndefined value never =>
    have ends := value.ends holds
    have failed := assign_of_unbound (ends.holds holds).acyclic (Machine.not_finds never)
    exact .ofPlan (.start rfl ends (.actFails (failed _)))
  | .assignFails value => exact .ofPlan (.startFails rfl (value.ends holds))
  | .unary operand yields =>
    exact .ofPlan (.start rfl (operand.ends holds) (.lastAct (yields.apply_eq _)))
  | .unaryFails operand => exact .ofPlan (.startFails rfl (operand.ends holds))
  | .binary left right yields =>
    have first := left.ends holds
    have second := right.ends (first.holds holds)
    exact .ofPlan (.start rfl first (.start rfl second (.lastAct (yields.apply_eq _))))
  | .binaryRightFails left right =>
    have first := left.ends holds
    have second := right.ends (first.holds holds)
    exact .ofPlan (.start rfl first (.startFails rfl second))
  | .logicalNeeds left needs right =>
    have first := left.ends holds
    have second := right.ends (first.holds holds)
    exact .ofPlan (.start rfl first (.ifFalse (LogicalOp.needs_iff.1 needs) (.lastPlain second)))
  | .logicalSettled left settled =>
    rw [LogicalOp.needs_iff, Classical.not_not] at settled
    exact .ofPlan (.start rfl (left.ends holds) (.ifTrue settled .done))
  | @Evaluates.leftFails _ _ _ _ op _ _ left =>
    have first := left.ends holds
    cases op with
    | binary op => exact .ofPlan (.startFails rfl first)
    | logical op => exact .ofPlan (.startFails rfl first)
  | .calleeFails callee => exact .ofPlan (.startFails rfl (callee.ends holds))
  | .notCallable callee other =>
    exact .ofPlan (.start rfl (callee.ends holds) (.actFails (asCallable_of_not other _)))
  | .argumentsFail callee arguments =>
    have first := callee.ends holds
    have second := arguments.ends (first.holds holds)
    exact .ofPlan (.start rfl first (.act rfl (.startFails rfl second)))
  | .arityMismatch callee arguments takes mismatch =>
    have first := callee.ends holds
    have second := arguments.ends (first.holds holds)
    refine .ofPlan (.start rfl first (.act rfl (.start rfl second ?_)))
    exact .actFails (checkArity_of_ne takes mismatch _)
  | .tooDeep callee arguments takes deep =>
    have first := callee.ends holds
    have second := arguments.ends (first.holds holds)
    refine .ofPlan
      (.start rfl first (.act rfl (.start rfl second (.act (checkArity_of_takes takes _) ?_))))
    exact .refused (if_pos deep)
  | @Evaluates.call _ _ _ _ paren _ _ _ _ callee arguments takes shallow invokes =>
    have first := callee.ends holds
    have second := arguments.ends (first.holds holds)
    obtain ⟨holdsCall, admitted⟩ := existingScopes_admits_invoke holds first second paren.line
    have third := invokes.ends (holdsCall.congr rfl rfl) admitted
    refine .ofPlan
      (.start rfl first (.act rfl (.start rfl second (.act (checkArity_of_takes takes _) ?_))))
    rw [← Final.onMachine_leave_call third.sameControl paren.line]
    exact .lastStart (.call paren.line) (if_neg (Nat.not_le.2 shallow)) third

theorem EvaluatesAll.ends {s : Machine} {expressions : List Expr} {final : Final (List Value)}
    (evaluates : EvaluatesAll s expressions final) (holds : existingScopes.Holds s) :
    (Task.evaluateAll expressions).Ends s final := by
  match evaluates with
  | .nil => exact .ofPlan .done
  | .cons head tail =>
    have first := head.ends holds
    exact .ofPlan (.start rfl first (.start rfl (tail.ends (first.holds holds)) .done))
  | .headFails head => exact .ofPlan (.startFails rfl (head.ends holds))
  | .tailFails head tail =>
    have first := head.ends holds
    exact .ofPlan (.start rfl first (.startFails rfl (tail.ends (first.holds holds))))

theorem Invokes.ends {s : Machine} {callable : Callable} {line : Nat} {arguments : List Value}
    {final : Final Value} (invokes : Invokes s callable line arguments final)
    (holds : existingScopes.Holds s)
    (admitted : existingScopes.Admits s.scopes.nextId (.invoke callable line arguments)) :
    (Task.invoke callable line arguments).Ends s final := by
  have inside : ∀ {closure bindings}, callable = .function closure →
      Bindings.SetsAll closure.params arguments [] bindings →
      existingScopes.Holds (s.opening closure.scope bindings) := by
    intro closure bindings same sets
    subst same
    obtain ⟨-, rfl⟩ := Bindings.setsAll_iff.1 sets
    refine Entry.inScope_holds holds.sound admitted.1.2 ?_
    intro name value bound
    exact admitted.2 value (Bindings.mem_of_get?_ofArguments bound)
  match invokes with
  | .native yields => exact .ofPlan (.lastAct (yields.invoke_eq line))
  | .returns sets body =>
    exact .ofPlan (.start (Entry.enter_of_setsAll sets) (body.ends (inside rfl sets)) .done)
  | @Invokes.completes _ _ closure _ _ _ signal sets body proper =>
    have ends := body.ends (inside rfl sets)
    cases signal with
    | returned keyword value => exact absurd rfl (proper keyword value)
    | completed => exact .ofPlan (.start (Entry.enter_of_setsAll sets) ends .done)
    | broke keyword => exact .ofPlan (.start (Entry.enter_of_setsAll sets) ends .done)
  | .fails sets body =>
    exact .ofPlan (.startFails (Entry.enter_of_setsAll sets) (body.ends (inside rfl sets)))

theorem Executes.ends {s : Machine} {statement : Stmt} {final : Final Signal}
    (executes : Executes s statement final) (holds : existingScopes.Holds s) :
    (Task.execute statement).Ends s final := by
  match executes with
  | .expression operand => exact .ofPlan (.start rfl (operand.ends holds) .done)
  | .expressionFails operand => exact .ofPlan (.startFails rfl (operand.ends holds))
  | .print operand displays takes ended =>
    obtain rfl := Value.displays_iff.1 displays
    exact .ofPlan (.start rfl (operand.ends holds) (.act (print_of_takes takes ended) .done))
  | .unwritable operand displays refuses =>
    obtain rfl := Value.displays_iff.1 displays
    exact .ofPlan (.start rfl (operand.ends holds) (.actFails (print_of_refuses refuses)))
  | .unended operand displays takes refuses =>
    obtain rfl := Value.displays_iff.1 displays
    exact .ofPlan (.start rfl (operand.ends holds) (.actFails (print_of_unended takes refuses)))
  | .printFails operand => exact .ofPlan (.startFails rfl (operand.ends holds))
  | .var initializer defines =>
    have ends := (initializer.ends holds).present
    exact .ofPlan (.start rfl ends (.act (define_of_defines defines) .done))
  | .varBare defines => exact .ofPlan (.start rfl .absent (.act (define_of_defines defines) .done))
  | .varFails initializer => exact .ofPlan (.startFails rfl (initializer.ends holds).present)
  | .function defines => exact .ofPlan (.act rfl (.act (define_of_defines defines) .done))
  | .block body =>
    have inside : existingScopes.Holds (s.opening s.current []) :=
      Entry.inScope_holds holds.sound holds.current (by simp [Bindings.get?])
    exact .ofPlan (.lastStart .block rfl (body.ends inside))
  | .ifTrue condition truthy branch =>
    have first := condition.ends holds
    have second := branch.ends (first.holds holds)
    exact .ofPlan (.start rfl first (.ifTrue (Value.not_falsy_iff.1 truthy) (.lastPlain second)))
  | .ifFalse condition falsy branch =>
    have first := condition.ends holds
    have second := branch.ends (first.holds holds)
    exact .ofPlan (.start rfl first (.ifFalse (Value.falsy_iff.1 falsy) (.lastPlain second)))
  | .ifNone condition falsy =>
    exact .ofPlan (.start rfl (condition.ends holds) (.ifFalse (Value.falsy_iff.1 falsy) .done))
  | .ifFails condition => exact .ofPlan (.startFails rfl (condition.ends holds))
  | .whileDone condition falsy =>
    exact .ofLoop (.start rfl (condition.ends holds) (.ifFalse (Value.falsy_iff.1 falsy) .done))
  | .whileAgain condition truthy body again =>
    have first := condition.ends holds
    have second := body.ends (first.holds holds)
    have third := again.ends (second.holds_statement (first.holds holds))
    refine .ofLoop (.start rfl first (.ifTrue (Value.not_falsy_iff.1 truthy) ?_))
    exact .start rfl second (.lastPlain (Task.Ends.while_iff.1 third))
  | .whileBroke condition truthy body =>
    have first := condition.ends holds
    have second := body.ends (first.holds holds)
    exact .ofLoop
      (.start rfl first (.ifTrue (Value.not_falsy_iff.1 truthy) (.start rfl second .done)))
  | .whileReturned condition truthy body =>
    have first := condition.ends holds
    have second := body.ends (first.holds holds)
    exact .ofLoop
      (.start rfl first (.ifTrue (Value.not_falsy_iff.1 truthy) (.start rfl second .done)))
  | .whileFails condition truthy body =>
    have first := condition.ends holds
    have second := body.ends (first.holds holds)
    exact .ofLoop
      (.start rfl first (.ifTrue (Value.not_falsy_iff.1 truthy) (.startFails rfl second)))
  | .conditionFails condition => exact .ofLoop (.startFails rfl (condition.ends holds))
  | .break => exact .ofPlan .done
  | .return operand => exact .ofPlan (.start rfl (operand.ends holds).present .done)
  | .returnBare => exact .ofPlan (.start rfl .absent .done)
  | .returnFails operand => exact .ofPlan (.startFails rfl (operand.ends holds).present)

theorem ExecutesAll.ends {s : Machine} {statements : List Stmt} {final : Final Signal}
    (executes : ExecutesAll s statements final) (holds : existingScopes.Holds s) :
    (Task.executeAll statements).Ends s final := by
  match executes with
  | .nil => exact .ofPlan .done
  | .cons statement rest =>
    have first := statement.ends holds
    exact .ofPlan (.start rfl first (.lastPlain (rest.ends (first.holds_statement holds))))
  | @ExecutesAll.leaves _ _ _ _ signal statement left =>
    have first := statement.ends holds
    cases signal with
    | completed => exact absurd rfl left
    | broke keyword => exact .ofPlan (.start rfl first .done)
    | returned keyword value => exact .ofPlan (.start rfl first .done)
  | .fails statement => exact .ofPlan (.startFails rfl (statement.ends holds))

end

/-! ## How a run ends is derived -/

/-- What the rules say of a task.  They say something of a call with as many arguments as the
function takes. -/
def Task.Derives : (task : Task) → Machine → Final task.Result → Prop
  | .evaluate expression, s, final => Evaluates s expression final
  | .evaluateAll expressions, s, final => EvaluatesAll s expressions final
  | .evaluateOption (some expression), s, final => Evaluates s expression final
  | .evaluateOption none, s, final => final = .ok .nil s
  | .invoke callable line arguments, s, final =>
    callable.Takes arguments.length → Invokes s callable line arguments final
  | .execute statement, s, final => Executes s statement final
  | .executeAll statements, s, final => ExecutesAll s statements final
  | .loop condition body, s, final => Executes s (.while condition body) final

namespace Plan

variable {α β : Type}

/-- The plan ends so, where tasks end by the rules.  It acts only on machines whose scopes exist. -/
def Derives : Plan α → Machine → Final α → Prop
  | .done value, s, final => final = .ok value s
  | .act action next, s, final => existingScopes.Holds s ∧ Ended (action.perform s) ∧
    (∀ value after, action.perform s = .ok value after → (next value).Derives after final) ∧
    ∀ failure after, action.perform s = .error (.failure failure) after →
      final = .error failure after
  | .start entry task next, s, final =>
    (∃ failure, entry.enter s = .error (.failure failure) ∧ final = .error failure s) ∨
    ∃ inner, entry.enter s = .ok inner ∧
      ((∃ value after, inner.SameControl after ∧ task.Derives inner (.ok value after) ∧
          (next value).Derives (entry.leave s after) final) ∨
        ∃ failure after, inner.SameControl after ∧ task.Derives inner (.error failure after) ∧
          final = .error failure (entry.leave s after))

namespace Derives

variable {s after : Machine} {final : Final α}

theorem act_ok {action : Act β} {next : β → Plan α} {value : β}
    (derives : (act action next).Derives s final) (performed : action.perform s = .ok value after) :
    (next value).Derives after final :=
  derives.2.2.1 value after performed

theorem act_error {action : Act β} {next : β → Plan α} {failure : Failure}
    (derives : (act action next).Derives s final)
    (performed : action.perform s = .error (.failure failure) after) :
    final = .error failure after :=
  derives.2.2.2 failure after performed

theorem lastAct {action : Act α} {result : Final α} (derives : (perform action).Derives s final)
    (performed : action.perform s = result.lift) : final = result := by
  cases result with
  | ok value after => exact derives.act_ok performed
  | error failure after => exact derives.act_error performed

theorem plain {task : Task} {next : task.Result → Plan α}
    (derives : (start .plain task next).Derives s final) :
    (∃ value after, task.Derives s (.ok value after) ∧ (next value).Derives after final) ∨
      ∃ failure after, task.Derives s (.error failure after) ∧ final = .error failure after := by
  obtain ⟨failure, refused, -⟩ | ⟨inner, entered, ends⟩ := derives
  · cases refused
  · cases entered
    obtain ⟨value, after, -, ends, rest⟩ | ⟨failure, after, -, ends, same⟩ := ends
    · exact .inl ⟨value, after, ends, rest⟩
    · exact .inr ⟨failure, after, ends, same⟩

theorem ifTrue {condition : Bool} {plan other : Plan α}
    (derives : (if condition then plan else other).Derives s final) (true : condition) :
    plan.Derives s final := by
  rw [if_pos true] at derives
  exact derives

theorem ifFalse {condition : Bool} {plan other : Plan α}
    (derives : (if condition then plan else other).Derives s final) (false : ¬ condition) :
    other.Derives s final := by
  rw [if_neg false] at derives
  exact derives

theorem lastPlain {task : Task} {final : Final task.Result}
    (derives : (start .plain task .done).Derives s final) : task.Derives s final := by
  obtain ⟨value, after, ends, same⟩ | ⟨failure, after, ends, same⟩ := derives.plain
  · rw [show final = .ok value after from same]
    exact ends
  · rw [same]
    exact ends

theorem lastStart {entry : Entry} {task : Task} {final : Final task.Result}
    (derives : (start entry task .done).Derives s final) :
    (∃ failure, entry.enter s = .error (.failure failure) ∧ final = .error failure s) ∨
      ∃ inner ended, entry.enter s = .ok inner ∧ inner.SameControl (Final.machine ended) ∧
        task.Derives inner ended ∧
        final = Final.onMachine (fun after => entry.leave s after) ended := by
  obtain refused |
    ⟨inner, entered, ⟨value, after, same, ends, rfl⟩ | ⟨failure, after, same, ends, rfl⟩⟩ := derives
  · exact .inl refused
  · exact .inr ⟨inner, .ok value after, entered, same, ends, rfl⟩
  · exact .inr ⟨inner, .error failure after, entered, same, ends, rfl⟩

end Derives

end Plan

theorem Expr.evaluates_of_plan {expression : Expr} {s : Machine} {final : Final Value}
    (derives : expression.plan.Derives s final) : Evaluates s expression final := by
  cases expression with
  | literal value =>
    obtain rfl : final = _ := derives
    exact .literal (Literal.denotes_iff.2 rfl)
  | «variable» name =>
    have acyclic := derives.1.acyclic
    by_cases means : ∃ value target, s.Means name.text value target
    · obtain ⟨value, target, means⟩ := means
      obtain rfl : final = _ := derives.act_ok (lookup_of_means acyclic means)
      exact .variable means
    · have never := fun value => not_exists.1 (not_exists.1 means value)
      obtain rfl := derives.act_error (lookup_of_unbound acyclic (Machine.not_finds never))
      exact .undefined never
  | grouping inner => exact .grouping derives.lastPlain
  | assign name operand =>
    obtain ⟨value, after, operand, rest⟩ | ⟨failure, after, operand, rfl⟩ := derives.plain
    · have acyclic := rest.1.acyclic
      by_cases means : ∃ old target, after.Means name.text old target
      · obtain ⟨old, target, means⟩ := means
        obtain ⟨last, defines⟩ := Machine.exists_defines means.target_lt name.text value
        obtain rfl : final = _ := rest.act_ok (assign_of_defines acyclic means defines)
        exact .assign operand means defines
      · have never := fun value => not_exists.1 (not_exists.1 means value)
        obtain rfl := rest.act_error (assign_of_unbound acyclic (Machine.not_finds never) value)
        exact .assignUndefined operand never
    · exact .assignFails operand
  | unary op mark operand =>
    obtain ⟨value, after, operand, rest⟩ | ⟨failure, after, operand, rfl⟩ := derives.plain
    · obtain ⟨result, yields⟩ := op.exists_yields value
      obtain rfl := rest.lastAct (yields.apply_eq mark.line)
      exact .unary operand yields
    · exact .unaryFails operand
  | operation left op mark right =>
    cases op with
    | binary op =>
      obtain ⟨first, middle, left, rest⟩ | ⟨failure, middle, left, rfl⟩ := derives.plain
      · obtain ⟨second, after, right, rest⟩ | ⟨failure, after, right, rfl⟩ := rest.plain
        · obtain ⟨result, yields⟩ := op.exists_yields first second
          obtain rfl := rest.lastAct (yields.apply_eq mark.line)
          exact .binary left right yields
        · exact .binaryRightFails left right
      · exact .leftFails left
    | logical op =>
      obtain ⟨first, middle, left, rest⟩ | ⟨failure, middle, left, rfl⟩ := derives.plain
      · by_cases needs : op.Needs first
        · have rest : (if op.isSettledBy first then pure first else valueOf right).Derives
              middle final := rest
          rw [if_neg (LogicalOp.needs_iff.1 needs)] at rest
          exact .logicalNeeds left needs rest.lastPlain
        · have rest : (if op.isSettledBy first then pure first else valueOf right).Derives
              middle final := rest
          rw [if_pos (Classical.not_not.1 (mt LogicalOp.needs_iff.2 needs))] at rest
          obtain rfl : final = _ := rest
          exact .logicalSettled left needs
      · exact .leftFails left
  | call callee paren arguments =>
    obtain ⟨value, first, callee, rest⟩ | ⟨failure, first, callee, rfl⟩ := derives.plain
    · by_cases function : ∃ callable, value = .callable callable
      · obtain ⟨callable, rfl⟩ := function
        have rest := (rest.act_ok rfl).plain
        obtain ⟨values, second, arguments, rest⟩ | ⟨failure, second, arguments, rfl⟩ := rest
        · by_cases takes : callable.Takes values.length
          · have last := (rest.act_ok (checkArity_of_takes takes _)).lastStart
            by_cases deep : 1024 ≤ second.depth
            · obtain ⟨failure, refused, rfl⟩ | ⟨inner, ended, entered, -⟩ := last
              · cases (if_pos deep).symm.trans refused
                exact .tooDeep callee arguments takes deep
              · cases (if_pos deep).symm.trans entered
            · obtain ⟨failure, refused, -⟩ | ⟨inner, ended, entered, same, invokes, rfl⟩ := last
              · cases (if_neg deep).symm.trans refused
              · cases (if_neg deep).symm.trans entered
                rw [Final.onMachine_leave_call same paren.line]
                exact .call callee arguments takes (Nat.not_le.1 deep) (invokes takes)
          · have takesArity : callable.Takes callable.arity := Callable.takes_iff.2 rfl
            have mismatch := mt Callable.takes_iff.2 takes
            obtain rfl := rest.act_error (checkArity_of_ne takesArity mismatch _)
            exact .arityMismatch callee arguments takesArity mismatch
        · exact .argumentsFail callee arguments
      · have other := not_exists.1 function
        obtain rfl := rest.act_error (asCallable_of_not other _)
        exact .notCallable callee other
    · exact .calleeFails callee

theorem Stmt.executes_of_plan {statement : Stmt} {s : Machine} {final : Final Signal}
    (derives : statement.plan.Derives s final) : Executes s statement final := by
  cases statement with
  | expression operand =>
    obtain ⟨value, after, operand, same⟩ | ⟨failure, after, operand, rfl⟩ := derives.plain
    · obtain rfl : final = _ := same
      exact .expression operand
    · exact .expressionFails operand
  | print operand =>
    obtain ⟨value, after, operand, rest⟩ | ⟨failure, after, operand, rfl⟩ := derives.plain
    · have displays : value.Displays value.text := Value.displays_iff.2 rfl
      obtain ⟨written, takes⟩ | ⟨error, refuses⟩ := after.sink.takes_or_refuses value.text
      · obtain ⟨sink, ended⟩ | ⟨error, refuses⟩ := written.takes_or_refuses "\n"
        · obtain rfl : final = _ := rest.act_ok (print_of_takes takes ended)
          exact .print operand displays takes ended
        · obtain rfl := rest.act_error (print_of_unended takes refuses)
          exact .unended operand displays takes refuses
      · obtain rfl := rest.act_error (print_of_refuses refuses)
        exact .unwritable operand displays refuses
    · exact .printFails operand
  | var name initializer =>
    obtain ⟨value, after, initial, rest⟩ | ⟨failure, after, initial, rfl⟩ := derives.plain
    · obtain ⟨last, defines⟩ := Machine.exists_defines rest.1.current name.text value
      obtain rfl : final = _ := rest.act_ok (define_of_defines defines)
      cases initializer with
      | some operand => exact .var initial defines
      | none =>
        cases initial
        exact .varBare defines
    · cases initializer with
      | some operand => exact .varFails initial
      | none => cases initial
  | function name params body =>
    have rest := derives.act_ok rfl
    obtain ⟨last, defines⟩ := Machine.exists_defines rest.1.current name.text _
    obtain rfl : final = _ := rest.act_ok (define_of_defines defines)
    exact .function defines
  | block statements =>
    obtain ⟨failure, refused, -⟩ | ⟨inner, ended, entered, -, body, rfl⟩ := derives.lastStart
    · cases refused
    · cases entered
      exact .block body
  | «if» condition thenBranch elseBranch =>
    obtain ⟨value, after, condition, rest⟩ | ⟨failure, after, condition, rfl⟩ := derives.plain
    · by_cases falsy : value.Falsy
      · have rest := rest.ifFalse (Value.falsy_iff.1 falsy)
        cases elseBranch with
        | some elseBranch => exact .ifFalse condition falsy rest.lastPlain
        | none =>
          obtain rfl : final = _ := rest
          exact .ifNone condition falsy
      · exact .ifTrue condition falsy (rest.ifTrue (Value.not_falsy_iff.1 falsy)).lastPlain
    · exact .ifFails condition
  | «while» condition body => exact derives.lastPlain
  | «break» keyword =>
    obtain rfl : final = _ := derives
    exact .break
  | «return» keyword operand =>
    obtain ⟨value, after, result, rest⟩ | ⟨failure, after, result, rfl⟩ := derives.plain
    · obtain rfl : final = _ := rest
      cases operand with
      | some operand => exact .return result
      | none =>
        cases result
        exact .returnBare
    · cases operand with
      | some operand => exact .returnFails result
      | none => cases result

theorem executes_while_of_plan {condition : Expr} {body : Stmt} {s : Machine} {final : Final Signal}
    (derives : (Task.loop condition body).plan.Derives s final) :
    Executes s (.while condition body) final := by
  obtain ⟨value, middle, condition, rest⟩ | ⟨failure, middle, condition, rfl⟩ := derives.plain
  · by_cases falsy : value.Falsy
    · obtain rfl : final = _ := rest.ifFalse (Value.falsy_iff.1 falsy)
      exact .whileDone condition falsy
    · have rest := (rest.ifTrue (Value.not_falsy_iff.1 falsy)).plain
      obtain ⟨signal, after, body, rest⟩ | ⟨failure, after, body, rfl⟩ := rest
      · cases signal with
        | completed => exact .whileAgain condition falsy body rest.lastPlain
        | broke keyword =>
          obtain rfl : final = _ := rest
          exact .whileBroke condition falsy body
        | returned keyword result =>
          obtain rfl : final = _ := rest
          exact .whileReturned condition falsy body
      · exact .whileFails condition falsy body
  · exact .conditionFails condition

/-- What a task plans it does by the rules, if the tasks that it starts do. -/
theorem Task.derives_of_plan {task : Task} {s : Machine} {final : Final task.Result}
    (derives : task.plan.Derives s final) : task.Derives s final := by
  cases task with
  | evaluate expression => exact expression.evaluates_of_plan derives
  | evaluateAll expressions =>
    cases expressions with
    | nil =>
      obtain rfl : final = _ := derives
      exact .nil
    | cons expression rest =>
      obtain ⟨value, middle, head, others⟩ | ⟨failure, middle, head, rfl⟩ := derives.plain
      · obtain ⟨values, after, tail, same⟩ | ⟨failure, after, tail, rfl⟩ := others.plain
        · obtain rfl : final = _ := same
          exact .cons head tail
        · exact .tailFails head tail
      · exact .headFails head
  | evaluateOption expression =>
    cases expression with
    | none => exact derives
    | some expression => exact derives.lastPlain
  | invoke callable line arguments =>
    intro takes
    have arity := Callable.takes_iff.1 takes
    cases callable with
    | native primitive =>
      obtain ⟨result, after, yields⟩ := Native.exists_yields arity derives.2.1
      obtain rfl := derives.lastAct (yields.invoke_eq line)
      exact .native yields
    | function closure =>
      have sets := Bindings.setsAll_iff.2 ⟨arity.symm, rfl⟩
      obtain ⟨failure, refused, -⟩ |
        ⟨inner, entered, ⟨signal, after, -, body, same⟩ | ⟨failure, after, -, body, rfl⟩⟩ := derives
      · cases refused
      · cases entered
        obtain rfl : final = _ := same
        cases signal with
        | returned keyword value => exact .returns sets body
        | completed => exact .completes sets body (by simp)
        | broke keyword => exact .completes sets body (by simp)
      · cases entered
        exact .fails sets body
  | execute statement => exact statement.executes_of_plan derives
  | executeAll statements =>
    cases statements with
    | nil =>
      obtain rfl : final = _ := derives
      exact .nil
    | cons statement rest =>
      obtain ⟨signal, after, first, others⟩ | ⟨failure, after, first, rfl⟩ := derives.plain
      · cases signal with
        | completed => exact .cons first others.lastPlain
        | broke keyword =>
          obtain rfl : final = _ := others
          exact .leaves first (by simp)
        | returned keyword value =>
          obtain rfl : final = _ := others
          exact .leaves first (by simp)
      · exact .fails first
  | loop condition body => exact executes_while_of_plan derives

/-- A plan that is followed to its end, with tasks that end by the rules. -/
theorem Plan.derives_of_follow {α : Type} {fuel : Nat}
    (tasks : ∀ (task : Task) (s : Machine) (final : Final task.Result), existingScopes.Holds s →
      existingScopes.Admits s.scopes.nextId task → task.run fuel s = final.lift →
      task.Derives s final)
    {Good : Nat → α → Prop} {plan : Plan α} {s : Machine} {final : Final α}
    (holds : existingScopes.Holds s) (obeys : plan.Obeys existingScopes Good s.scopes.nextId)
    (followed : plan.follow (Task.run fuel) s = final.lift) : plan.Derives s final := by
  induction plan generalizing s with
  | done value => exact Final.eq_of_lift followed.symm
  | act action next ih =>
    have meets := action.meets holds obeys.1
    refine ⟨holds, ?_, ?_, ?_⟩
    · intro after performed
      exact final.ended_lift after (followed.symm.trans (bind_of_error performed))
    · intro value after performed
      rw [performed] at meets
      obtain ⟨holdsAfter, grows, yields⟩ := meets
      have rest := (bind_of_ok performed).symm.trans followed
      exact ih value holdsAfter (obeys.2 _ value grows.count_le yields) rest
    · intro failure after performed
      exact Final.eq_of_lift (followed.symm.trans (bind_of_error performed))
  | start entry task next ih =>
    cases entered : entry.enter s with
    | error halt =>
      have same := followed.symm.trans (bind_of_error (Entry.around_of_refused entered))
      cases halt with
      | failure failure => exact .inl ⟨failure, entered, Final.eq_of_lift same⟩
      | suspended => exact absurd same (final.ended_lift s)
    | ok inner =>
      obtain ⟨holdsInner, growsInner⟩ := Entry.enter_holds holds obeys.1 entered
      have admitted := Discipline.admits_mono growsInner.count_le obeys.2.1
      have governed := Task.governed fuel task inner holdsInner admitted
      have control := Task.run_sameControl fuel task inner
      have ends := fun final => tasks task inner final holdsInner admitted
      refine .inr ⟨inner, entered, ?_⟩
      cases ran : task.run fuel inner with
      | ok value after =>
        rw [ran] at governed control
        have grows := growsInner.trans governed.grows
        have holdsLeft := entry.leave_holds holds governed.holds grows
        have gives := governed.good value after rfl
        have rest := (bind_of_ok (Entry.around_of_ok entered ran)).symm.trans followed
        have same : (entry.leave s after).scopes = after.scopes := entry.leave_scopes
        have obeysRest := obeys.2.2 _ value grows.count_le gives
        rw [machineAfter, ← same] at obeysRest
        exact .inl ⟨value, after, control, ends _ ran, ih value holdsLeft obeysRest rest⟩
      | error halt after =>
        rw [ran] at control
        have same := followed.symm.trans (bind_of_error (Entry.around_of_error entered ran))
        cases halt with
        | failure failure => exact .inr ⟨failure, after, control, ends _ ran, Final.eq_of_lift same⟩
        | suspended => exact absurd same (final.ended_lift _)

/-- A task that ends does so by the rules. -/
theorem Task.derives_of_run {fuel : Nat} {task : Task} {s : Machine} {final : Final task.Result}
    (holds : existingScopes.Holds s) (admitted : existingScopes.Admits s.scopes.nextId task)
    (ran : task.run fuel s = final.lift) : task.Derives s final := by
  induction fuel generalizing task s with
  | zero =>
    rw [Task.run_zero] at ran
    exact absurd ran.symm (final.ended_lift s)
  | succ fuel ih =>
    rw [Task.run_succ] at ran
    apply Task.derives_of_plan
    exact Plan.derives_of_follow (fun task s final => ih) holds (Task.plan_obeys admitted) ran

/-! ## Programs -/

/-- What is reported of a program that ended so. -/
def Final.report : Final Unit → Option Diagnostic
  | .ok _ _ => none
  | .error failure _ => some failure.diagnostic

theorem Interprets.arrives {s after : Machine} {statements : List Stmt} {report : Option Diagnostic}
    (interprets : Interprets s statements report after) (holds : existingScopes.Holds s) :
    ∃ final : Final Unit, (programPlan statements).Arrives s final ∧ final.report = report ∧
      final.machine = after := by
  induction interprets with
  | nil => exact ⟨.ok () _, .done, rfl, rfl⟩
  | cons first _ ih =>
    have ends := first.ends holds
    obtain ⟨final, rest, reported, left⟩ := ih (ends.holds_statement holds)
    exact ⟨final, .start rfl ends rest, reported, left⟩
  | broke first =>
    exact ⟨.error (.runtime _ .breakOutsideLoop) _,
      .start rfl (first.ends holds) (.actFails rfl), rfl, rfl⟩
  | returned first =>
    exact ⟨.error (.runtime _ .returnOutsideFunction) _,
      .start rfl (first.ends holds) (.actFails rfl), rfl, rfl⟩
  | fails first reports =>
    obtain rfl := Failure.reports_iff.1 reports
    exact ⟨.error _ _, .startFails rfl (first.ends holds), rfl, rfl⟩

theorem interprets_of_plan {statements : List Stmt} {s : Machine} {final : Final Unit}
    (derives : (programPlan statements).Derives s final) :
    Interprets s statements final.report final.machine := by
  induction statements generalizing s with
  | nil =>
    obtain rfl : final = _ := derives
    exact .nil
  | cons statement rest ih =>
    obtain ⟨signal, after, first, others⟩ | ⟨failure, after, first, rfl⟩ := derives.plain
    · cases signal with
      | completed => exact .cons first (ih others)
      | broke keyword =>
        obtain rfl := others.act_error rfl
        exact .broke first
      | returned keyword value =>
        obtain rfl := others.act_error rfl
        exact .returned first
    · exact .fails first (Failure.reports_iff.2 rfl)

theorem Diagnostics.eq_of_extend {diagnostics : Diagnostics} {report other : Option Diagnostic}
    (same : diagnostics.extend report.toList = diagnostics.extend other.toList) :
    report = other := by
  have same := congrArg Diagnostics.held same
  rw [held_extend, held_extend] at same
  have same := List.append_cancel_left same
  cases report with
  | none =>
    cases other with
    | none => rfl
    | some => cases same
  | some =>
    cases other with
    | none => cases same
    | some => cases same; rfl

theorem Session.interpret_of_lift {fuel : Nat} {statements : List Stmt} {s : Machine}
    {final : Final Unit} (ran : Lox.interpret fuel statements s = final.lift)
    (diagnostics : Diagnostics) :
    Session.interpret fuel statements ⟨s, diagnostics⟩ =
      .finished ⟨final.machine, diagnostics.extend final.report.toList⟩ := by
  cases final with
  | ok value after =>
    simp only [Session.interpret, ran, Final.lift, Final.machine, Final.report, Option.toList,
      Diagnostics.extend_nil]
  | error failure after => simp only [Session.interpret, ran, Final.lift]; rfl

/-- Programs run as the rules say: on a machine whose scopes exist, a program can be run to its end
with a report and a machine if and only if the rules derive them. -/
theorem interpret_iff_interprets {machine : Machine}
    (fine : existingScopes.Holds machine ∨ Session.Passes machine) (statements : List Stmt)
    (diagnostics : Diagnostics) (report : Option Diagnostic) (after : Machine) :
    (∃ fuel, Session.interpret fuel statements ⟨machine, diagnostics⟩ =
      .finished ⟨after, diagnostics.extend report.toList⟩) ↔
        Interprets machine statements report after := by
  have holds : existingScopes.Holds machine := fine.elim id Session.Passes.existing
  constructor
  · rintro ⟨fuel, finished⟩
    have ended : Ended (Lox.interpret fuel statements machine) := by
      intro last suspended
      simp only [Session.interpret, suspended, reduceCtorEq] at finished
    obtain ⟨final, ran⟩ := Final.exists_lift_eq ended
    have same := (Session.interpret_of_lift ran.symm diagnostics).symm.trans finished
    injection same with same
    injection same with left reported
    rw [← left, ← Diagnostics.eq_of_extend reported]
    apply interprets_of_plan
    rw [interpret_eq_follow] at ran
    exact Plan.derives_of_follow (fun _ _ _ => Task.derives_of_run) holds
      (programPlan_obeys fun _ _ => trivial)
      ran.symm
  · intro interprets
    obtain ⟨final, ⟨-, fuel, reached⟩, rfl, rfl⟩ := interprets.arrives holds
    refine ⟨fuel, Session.interpret_of_lift ?_ diagnostics⟩
    rw [interpret_eq_follow]
    exact reached

/-- What a run came to its end with. -/
def Progress.finished? {α : Type} : Progress α → Option α
  | .finished value => some value
  | .suspended _ => none

/-- A function compares its argument and returns out of a loop, its two calls are printed, and a
`break` outside of any loop stops the program. -/
def strayBreak : List Stmt :=
  let equals (left right : Expr) := Expr.operation left (.binary .equal) ⟨"==", 1⟩ right
  let argument := Expr.variable ⟨"x", 1⟩
  let returning := Stmt.return ⟨"return", 1⟩ (some (equals argument (.literal .nil)))
  let call (argument : Literal) := Expr.call (.variable ⟨"f", 2⟩) ⟨")", 2⟩ [.literal argument]
  [.function ⟨"f", 1⟩ [⟨"x", 1⟩] [.while (equals argument argument) (.block [returning])],
    .print (call .nil),
    .print (call (.string "a")),
    .break ⟨"break", 3⟩,
    .print (.literal .nil)]

theorem interprets_strayBreak : ∃ machine after,
    existingScopes.Holds machine ∧ after.sink.text = "true\nfalse\n" ∧
      Interprets machine strayBreak
        (some (.runtime 3 "Can't use 'break' outside of a loop.")) after := by
  have holds := existingScopes_holds_initial {} {} { time := fun _ => 0 }
  have checked :
      (Session.interpret 14 strayBreak (.initial {} {} { time := fun _ => 0 })).finished?.map
      (fun last => (last.diagnostics, last.machine.sink.text)) =
        some (Diagnostics.report {} (.runtime 3 "Can't use 'break' outside of a loop."),
          "true\nfalse\n") := by
    decide +kernel
  cases finished : Session.interpret 14 strayBreak (.initial {} {} { time := fun _ => 0 }) with
  | suspended last =>
    rw [finished] at checked
    cases checked
  | finished last =>
    rw [finished] at checked
    obtain ⟨after, diagnostics⟩ := last
    obtain ⟨rfl, printed⟩ := Prod.mk.inj (Option.some.inj checked)
    refine ⟨_, after, holds, printed, ?_⟩
    exact (interpret_iff_interprets (.inl holds) strayBreak {} _ after).1 ⟨14, finished⟩

end Lox
