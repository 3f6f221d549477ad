import Lox.Proofs.Machine.Moment

/-!
# The current scope and the depth of calls

A run moves to other scopes and counts its calls, and it is back in its scope and at its depth
however it ends.  While it lasts, the depth is the number of calls in progress.  It never exceeds
the limit, and a call is refused for it exactly if everything else about the call is in order and as
many calls as there can be are in progress.

* `Task.run_sameControl`: what one task restores, by induction on the fuel.
* `Moment.depth_eq`, `Moment.depth_le`: the depth at each moment of a run.
* `Overflow`, `Moment.overflow`: where a failure for the depth of calls comes from.
-/

namespace Lox

open Plan Eval

/-- The machines are in the same scope and at the same depth. -/
structure Machine.SameControl (before after : Machine) : Prop where
  current : after.current = before.current
  depth : after.depth = before.depth

namespace Machine.SameControl

theorem refl (machine : Machine) : machine.SameControl machine := ⟨rfl, rfl⟩

theorem trans {before middle after : Machine} (first : before.SameControl middle)
    (second : middle.SameControl after) : before.SameControl after :=
  ⟨second.current.trans first.current, second.depth.trans first.depth⟩

end Machine.SameControl

/-- The failure of a call that is one too many. -/
def Halt.tooDeep (line : Nat) : Halt := .failure (.runtime line .callsTooDeep)

/-! ## Acts -/

/-- Whatever the machine, the computation leaves it alone and has one value or one failure, not one
for the depth. -/
inductive Fixed {α : Type} : Eval α → Prop
  | value (value : α) : Fixed (pure value)
  | fails {line : Nat} {fault : RuntimeFault} : fault ≠ .callsTooDeep → Fixed (Eval.fail line fault)

namespace Fixed

theorem unary (op : UnaryOp) (line : Nat) (operand : Value) :
    Fixed (applyUnary op line operand) := by
  unfold applyUnary
  split
  · exact .value _
  · exact .fails (by simp)
  · exact .value _

theorem onNumbers (line : Nat) (left right : Value) (combine : Float → Float → Value) :
    Fixed (Eval.onNumbers line left right combine) := by
  unfold Eval.onNumbers
  split
  · exact .value _
  · exact .fails (by simp)

theorem binary (op : BinaryOp) (line : Nat) (left right : Value) :
    Fixed (applyBinary op line left right) := by
  cases op with
  | add =>
    change Fixed (add line left right)
    unfold add
    split
    · exact .value _
    · exact .value _
    · exact .fails (by simp)
  | divide =>
    change Fixed (divide line left right)
    unfold divide
    split
    · split
      · exact .fails (by simp)
      · exact .value _
    · exact .fails (by simp)
  | equal => exact .value _
  | notEqual => exact .value _
  | _ => exact onNumbers line left right _

theorem callee (line : Nat) (value : Value) : Fixed (asCallable line value) := by
  unfold asCallable
  split
  · exact .value _
  · exact .fails (by simp)

theorem arity (line : Nat) (callable : Callable) (arguments : List Value) :
    Fixed (checkArity line callable arguments) := by
  unfold checkArity
  split
  · exact .value _
  · exact .fails (by simp)

theorem number (line : Nat) (value : Value) : Fixed (Native.toNumber line value) := by
  unfold Native.toNumber
  split
  · exact .value _
  · split
    · exact .value _
    · exact .fails (by simp)
  · exact .fails (by simp)

theorem machine_eq {α : Type} {run : Eval α} (fixed : Fixed run) (machine : Machine) :
    machineAfter (run machine) = machine := by
  cases fixed with
  | value value => rfl
  | fails other => rfl

end Fixed

/-- A computation left the scope and the depth as they were, and did not fail for the depth. -/
inductive Steady {α : Type} (machine : Machine) : EStateM.Result Halt Machine α → Prop
  | ok {value after} : machine.SameControl after → Steady machine (.ok value after)
  | error {halt after} : (∀ line, halt ≠ .tooDeep line) → machine.SameControl after →
    Steady machine (.error halt after)

namespace Steady

variable {α : Type} (machine : Machine)

theorem sameControl {machine : Machine} {result : EStateM.Result Halt Machine α}
    (steady : Steady machine result) : machine.SameControl (machineAfter result) := by
  cases steady with
  | ok same => exact same
  | error _ same => exact same

theorem fixed {run : Eval α} (fixed : Fixed run) : Steady machine (run machine) := by
  cases fixed with
  | value value => exact .ok (.refl machine)
  | fails other =>
    refine .error ?_ (.refl machine)
    intro line same
    cases same
    exact other rfl

theorem lookup (name : Lexeme) : Steady machine (Eval.lookup name machine) := by
  unfold Eval.lookup
  split
  · exact .ok (.refl machine)
  · exact .fixed machine (.fails (by simp))

theorem assign (name : Lexeme) (value : Value) :
    Steady machine (Eval.assign name value machine) := by
  unfold Eval.assign
  split
  · exact .ok ⟨rfl, rfl⟩
  · exact .fixed machine (.fails (by simp))

theorem native (primitive : Native) (line : Nat) (arguments : List Value) :
    Steady machine (primitive.invoke line arguments machine) := by
  cases primitive with
  | clock =>
    change Steady machine (Native.readClock line machine)
    unfold Native.readClock
    rcases machine.clock.read with ⟨time, clock⟩
    cases time with
    | ok time => exact .ok ⟨rfl, rfl⟩
    | error error => exact .error (by simp [Halt.tooDeep]) ⟨rfl, rfl⟩
  | input =>
    change Steady machine (Native.readLine line machine)
    unfold Native.readLine
    rcases machine.source.read with ⟨reading, source⟩
    cases reading with
    | line text => exact .ok ⟨rfl, rfl⟩
    | ended => exact .ok ⟨rfl, rfl⟩
    | failed error => exact .error (by simp [Halt.tooDeep]) ⟨rfl, rfl⟩
    | pending => exact .error (by simp [Halt.tooDeep]) ⟨rfl, rfl⟩
  | number => exact .fixed machine (.number line _)

theorem print (text : String) : Steady machine (Eval.print text machine) := by
  unfold Eval.print
  split
  · exact .ok ⟨rfl, rfl⟩
  · exact .error (by simp [Halt.tooDeep]) ⟨rfl, rfl⟩

/-- No act of a plan changes the scope or the depth, or fails for the depth. -/
theorem perform {declares : Prop} {action : Act α} (planned : action.IsPlanned declares) :
    Steady machine (action.perform machine) := by
  cases action with
  | lookup name => exact lookup machine name
  | assign name value => exact assign machine name value
  | define name value => exact .ok ⟨rfl, rfl⟩
  | declare name params body => exact .ok ⟨rfl, rfl⟩
  | unary op line operand => exact .fixed machine (.unary op line operand)
  | binary op line left right => exact .fixed machine (.binary op line left right)
  | callee line value => exact .fixed machine (.callee line value)
  | arity line callable arguments => exact .fixed machine (.arity line callable arguments)
  | native primitive line arguments => exact native machine primitive line arguments
  | print text => exact print machine text
  | fail line fault =>
    refine .fixed machine (.fails ?_)
    rcases planned with rfl | rfl
    · simp
    · simp

end Steady

section Perform

variable {α : Type} {declares : Prop} {action : Act α} {machine after : Machine}

theorem Act.sameControl_of_perform (planned : action.IsPlanned declares)
    {result : EStateM.Result Halt Machine α} (performed : action.perform machine = result) :
    machine.SameControl (machineAfter result) := by
  rw [← performed]
  exact (Steady.perform machine planned).sameControl

theorem Act.perform_ne_tooDeep (planned : action.IsPlanned declares) (line : Nat) :
    action.perform machine ≠ .error (.tooDeep line) after := by
  intro failed
  have steady := Steady.perform machine planned
  rw [failed] at steady
  cases steady with
  | error other _ => exact other line rfl

end Perform

/-! ## What is restored -/

theorem Entry.leave_sameControl {entry : Entry} {machine inner after : Machine}
    (entered : entry.enter machine = .ok inner) (inside : inner.SameControl after) :
    machine.SameControl (entry.leave machine after) := by
  cases entry with
  | plain =>
    cases entered
    exact inside
  | block =>
    cases entered
    exact ⟨rfl, inside.depth⟩
  | frame enclosing bindings =>
    cases entered
    exact ⟨rfl, inside.depth⟩
  | call line =>
    rw [enter] at entered
    split at entered
    · cases entered
    · cases entered
      have counted : after.depth - 1 = machine.depth := by
        rw [inside.depth]
        rfl
      exact ⟨inside.current, counted⟩

namespace Plan

variable {α : Type} {run : (task : Task) → Eval task.Result} {declares : Prop}
    {can : Entry → Task → Prop}

/-- Following a plan restores the scope and the depth, if the tasks that it starts do. -/
theorem follow_sameControl
    (tasks : ∀ task inner, Machine.SameControl inner (machineAfter (run task inner)))
    {plan : Plan α} (only : plan.StartsOnly declares can) (machine : Machine) :
    machine.SameControl (machineAfter (plan.follow run machine)) := by
  have course := plan.course run (fun _ _ => []) machine
  generalize plan.follow run machine = result at course
  generalize plan.trace run (fun _ _ => []) machine = events at course
  induction course with
  | done => exact .refl _
  | @acted β action next machine value after events result performed _ ih =>
    exact (Act.sameControl_of_perform only.1 performed).trans (ih (only.2 value))
  | @stopped β action next machine halt after performed =>
    exact Act.sameControl_of_perform only.1 performed
  | refused => exact .refl _
  | @returned entry task next machine inner value after events result entered ran _ ih =>
    have inside := tasks task inner
    rw [ran] at inside
    exact (Entry.leave_sameControl entered inside).trans (ih (only.2 value))
  | @halted entry task next machine inner halt after entered ran =>
    have inside := tasks task inner
    rw [ran] at inside
    exact Entry.leave_sameControl entered inside

theorem Leads.sameControl
    (tasks : ∀ task inner, Machine.SameControl inner (machineAfter (run task inner)))
    {plan left : Plan α} {machine now : Machine} (leads : plan.Leads run machine left now)
    (only : plan.StartsOnly declares can) : machine.SameControl now := by
  induction leads with
  | refl => exact .refl _
  | @acted β action next machine value after left now performed _ ih =>
    exact (Act.sameControl_of_perform only.1 performed).trans (ih (only.2 value))
  | @returned entry task next machine inner value after left now entered ran _ ih =>
    have inside := tasks task inner
    rw [ran] at inside
    exact (Entry.leave_sameControl entered inside).trans (ih (only.2 value))

end Plan

/-- A task ends in the scope and at the depth in which it was started, however it ends. -/
theorem Task.run_sameControl (fuel : Nat) (task : Task) (machine : Machine) :
    machine.SameControl (machineAfter (task.run fuel machine)) := by
  induction fuel generalizing task machine with
  | zero =>
    rw [Task.run_zero]
    exact .refl machine
  | succ fuel ih =>
    rw [Task.run_succ]
    exact follow_sameControl ih task.plan_startsOnly machine

theorem Plan.Visits.sameControl {α : Type} {plan : Plan α} {declares : Prop}
    {can : Entry → Task → Prop} {fuel : Nat} {machine now : Machine}
    (visits : plan.Visits (Task.run fuel) machine now) (only : plan.StartsOnly declares can) :
    machine.SameControl now := by
  cases visits with
  | onTheWay leads => exact leads.sameControl (Task.run_sameControl fuel) only
  | atEnd => exact follow_sameControl (Task.run_sameControl fuel) only machine

/-! ## Calls in progress -/

/-- The task is a call of a function. -/
def Task.isCall : Task → Bool
  | .invoke _ _ _ => true
  | _ => false

/-- The number of calls among runs. -/
def callsIn (runs : List Run) : Nat := runs.countP fun run => run.task.isCall

/-- The plan is outside of any call: it starts tasks on the machine as it is, and none of them is a
call. -/
def Plan.IsOuter {α : Type} (plan : Plan α) : Prop :=
  plan.StartsOnly False fun entry task => entry = .plain ∧ task.isCall = false

theorem callsIn_cons (run : Run) (rest : List Run) :
    callsIn (run :: rest) = callsIn rest + if run.task.isCall then 1 else 0 :=
  List.countP_cons

/-- A task that is started as a call is one more call, and no other task is. -/
theorem Task.Begins.enter_depth {outer task : Task} {entry : Entry}
    (begins : outer.Begins entry task) {machine inner : Machine}
    (entered : entry.enter machine = .ok inner) :
    inner.depth = machine.depth + if task.isCall then 1 else 0 := by
  cases begins with
  | call =>
    rw [Entry.enter] at entered
    split at entered
    · cases entered
    · cases entered
      rfl
  | _ =>
    cases entered
    rfl

theorem Entry.enter_depth_le {entry : Entry} {machine inner : Machine}
    (entered : entry.enter machine = .ok inner) (le : machine.depth ≤ Machine.maxDepth) :
    inner.depth ≤ Machine.maxDepth := by
  cases entry with
  | call line =>
    rw [enter] at entered
    split at entered
    · cases entered
    · cases entered
      change machine.depth + 1 ≤ Machine.maxDepth
      omega
  | _ =>
    cases entered
    exact le

namespace Moment

variable {α : Type} {fuel : Nat} {plan : Plan α} {machine now : Machine} {runs : List Run}

/-- At each moment the depth is that of the start and the number of calls in progress. -/
theorem depth_eq (outer : plan.IsOuter) (moment : Moment fuel plan machine runs now) :
    now.depth = machine.depth + callsIn runs := by
  induction moment with
  | own visits => exact (visits.sameControl outer).depth
  | @first entry task inner reaches =>
    rcases reaches with ⟨next, before, leads, entered⟩
    have start := (leads.startsOnly outer).1
    have same := (leads.sameControl (Task.run_sameControl fuel) outer).depth
    rw [start.1] at entered
    cases entered
    rw [same, callsIn_cons, start.2]
    rfl
  | @within less task start rest now _ visits ih =>
    rw [(visits.sameControl task.plan_startsOnly).depth]
    exact ih
  | @deeper less task start rest entry later inner _ reaches ih =>
    rcases reaches with ⟨next, before, leads, entered⟩
    have begins := (leads.startsOnly task.plan_startsOnly).1
    have same := (leads.sameControl (Task.run_sameControl less) task.plan_startsOnly).depth
    rw [begins.enter_depth entered, same, ih, callsIn_cons ⟨less, later, inner⟩, Nat.add_assoc]

theorem depth_le (outer : plan.IsOuter) (limited : machine.depth ≤ Machine.maxDepth)
    (moment : Moment fuel plan machine runs now) : now.depth ≤ Machine.maxDepth := by
  induction moment with
  | own visits =>
    rw [(visits.sameControl outer).depth]
    exact limited
  | first reaches =>
    rcases reaches with ⟨next, before, leads, entered⟩
    have same := (leads.sameControl (Task.run_sameControl fuel) outer).depth
    exact Entry.enter_depth_le entered (Nat.le_trans (Nat.le_of_eq same) limited)
  | @within less task start rest now _ visits ih =>
    rw [(visits.sameControl task.plan_startsOnly).depth]
    exact ih
  | @deeper less task start rest entry later inner _ reaches ih =>
    rcases reaches with ⟨next, before, leads, entered⟩
    have same := (leads.sameControl (Task.run_sameControl less) task.plan_startsOnly).depth
    exact Entry.enter_depth_le entered (Nat.le_trans (Nat.le_of_eq same) ih)

end Moment

/-! ## Calls that are one too many -/

/-- The callee is a function, and its arguments have values, as many as it takes.  The call is then
due on a machine. -/
def DueCall (fuel : Nat) (callee : Expr) (arguments : List Expr) (machine ready : Machine) : Prop :=
  ∃ callable middle values, evaluate fuel callee machine = .ok (.callable callable) middle ∧
    evaluateAll fuel arguments middle = .ok values ready ∧ values.length = callable.arity

/-- A call on a line becomes due while as many calls as there can be are in progress. -/
def Overflow {α : Type} (fuel : Nat) (plan : Plan α) (machine : Machine) (line : Nat) : Prop :=
  ∃ less callee paren arguments start rest ready,
    Moment fuel plan machine
      (⟨less + 1, .evaluate (.call callee paren arguments), start⟩ :: rest) start ∧
    DueCall less callee arguments start ready ∧ Machine.maxDepth ≤ machine.depth + callsIn rest ∧
    paren.line = line

section Call

variable {fuel line : Nat} {callee : Expr} {paren : Lexeme} {arguments : List Expr}
    {machine before : Machine}

theorem asCallable_eq_ok {value : Value} {callable : Callable} {after : Machine}
    (done : asCallable line value machine = .ok callable after) :
    value = .callable callable ∧ after = machine := by
  cases value with
  | callable own =>
    cases done
    exact ⟨rfl, rfl⟩
  | _ => cases done

theorem checkArity_eq_ok {callable : Callable} {values : List Value} {after : Machine}
    (done : checkArity line callable values machine = .ok () after) :
    values.length = callable.arity ∧ after = machine := by
  unfold checkArity at done
  split at done
  · cases done
    exact ⟨‹_›, rfl⟩
  · cases done

/-- Evaluating a call comes to start it only when the call is due. -/
theorem dueCall_of_leads {entry : Entry} {task : Task} {next : task.Result → Plan Value}
    (leads : (Expr.call callee paren arguments).plan.Leads (Task.run fuel) machine
      (.start entry task next) before)
    (isCall : task.isCall = true) : DueCall fuel callee arguments machine before := by
  change ((Plan.valueOf callee).bind _).Leads _ _ _ _ at leads
  cases leads with
  | refl => cases isCall
  | returned entered ran leads =>
    cases entered
    cases leads with
    | acted performed leads =>
      obtain ⟨rfl, rfl⟩ := asCallable_eq_ok performed
      cases leads with
      | refl => cases isCall
      | returned entered ranAll leads =>
        cases entered
        cases leads with
        | acted performed leads =>
          obtain ⟨arity, rfl⟩ := checkArity_eq_ok performed
          cases leads with
          | refl => exact ⟨_, _, _, ran, ranAll, arity⟩
          | returned _ _ leads => cases leads

/-- A call that is due fails if there is no room for one more. -/
theorem evaluate_call_of_due (due : DueCall fuel callee arguments machine before)
    (full : Machine.maxDepth ≤ before.depth) :
    evaluate (fuel + 1) (.call callee paren arguments) machine =
      .error (.tooDeep paren.line) before := by
  rcases due with ⟨callable, middle, values, ran, ranAll, arity⟩
  have called : (Act.callee paren.line (.callable callable)).perform middle = .ok callable middle :=
    rfl
  have checked : (Act.arity paren.line callable values).perform before = .ok () before := by
    rw [Act.perform, checkArity, if_pos arity]
    rfl
  have leads : (Expr.call callee paren arguments).plan.Leads (Task.run fuel) machine
      (.start (.call paren.line) (.invoke callable paren.line values) .done) before := by
    exact .returned rfl ran (.acted called (.returned rfl ranAll (.acted checked .refl)))
  rw [Task.evaluate_succ, leads.follow_eq]
  have refused : (Entry.call paren.line).enter before = .error (.tooDeep paren.line) := by
    rw [Entry.enter, if_pos full]
    rfl
  exact bind_of_error (Entry.around_of_refused refused)

end Call

theorem Entry.enter_eq_error {entry : Entry} {machine : Machine} {halt : Halt}
    (refused : entry.enter machine = .error halt) :
    ∃ line, entry = .call line ∧ halt = .tooDeep line ∧ Machine.maxDepth ≤ machine.depth := by
  cases entry with
  | call line =>
    rw [enter] at refused
    split at refused
    · cases refused
      exact ⟨line, rfl, rfl, ‹_›⟩
    · cases refused
  | _ => cases refused

namespace Moment

variable {α : Type} {fuel : Nat} {plan : Plan α} {machine : Machine}

/-- A run that fails for the depth of calls has come to a call that is one too many. -/
theorem overflow (outer : plan.IsOuter) {less line : Nat} {task : Task} {start after : Machine}
    {rest : List Run} (moment : Moment fuel plan machine (⟨less, task, start⟩ :: rest) start)
    (failed : task.run less start = .error (.tooDeep line) after) :
    Overflow fuel plan machine line := by
  induction less generalizing task start rest after with
  | zero =>
    rw [Task.run_zero] at failed
    cases failed
  | succ less ih =>
    rw [Task.run_succ] at failed
    rcases exists_of_follow_eq_error failed with ⟨β, action, next, before, last, leads, stopped⟩ |
      ⟨entry, later, next, before, leads, refused⟩ | ⟨entry, later, inner, last, reaches, failed⟩
    · exact absurd stopped (Act.perform_ne_tooDeep (leads.startsOnly task.plan_startsOnly).1 line)
    · obtain ⟨own, rfl, same, full⟩ := Entry.enter_eq_error refused
      cases same
      have begins := (leads.startsOnly task.plan_startsOnly).1
      have depth := (leads.sameControl (Task.run_sameControl less) task.plan_startsOnly).depth
      rw [depth, moment.depth_eq outer] at full
      cases begins with
      | call =>
        exact ⟨less, _, _, _, start, rest, before, moment, dueCall_of_leads leads rfl, full, rfl⟩
    · exact ih (moment.deeper reaches) failed

end Moment

/-- Following a plan fails for the depth of calls exactly if it comes to a call that is one too
many. -/
theorem Plan.follow_eq_tooDeep_iff {α : Type} {plan : Plan α} (outer : plan.IsOuter) (fuel : Nat)
    (machine : Machine) (line : Nat) :
    (∃ after, plan.follow (Task.run fuel) machine = .error (.tooDeep line) after) ↔
      Overflow fuel plan machine line := by
  constructor
  · rintro ⟨after, failed⟩
    rcases exists_of_follow_eq_error failed with ⟨β, action, next, before, last, leads, stopped⟩ |
      ⟨entry, task, next, before, leads, refused⟩ | ⟨entry, task, inner, last, reaches, failed⟩
    · exact absurd stopped (Act.perform_ne_tooDeep (leads.startsOnly outer).1 line)
    · obtain ⟨own, rfl, -⟩ := Entry.enter_eq_error refused
      cases (leads.startsOnly outer).1.1
    · exact Moment.overflow outer (.first reaches) failed
  · rintro ⟨less, callee, paren, arguments, start, rest, ready, moment, due, full, rfl⟩
    have depth : ready.depth = start.depth := by
      rcases due with ⟨callable, middle, values, ran, ranAll, -⟩
      have first := Task.run_sameControl less (.evaluate callee) start
      have second := Task.run_sameControl less (.evaluateAll arguments) middle
      rw [Task.run, ran] at first
      rw [Task.run, ranAll] at second
      exact (first.trans second).depth
    have counted := moment.depth_eq outer
    change start.depth = machine.depth + callsIn rest at counted
    rw [← counted, ← depth] at full
    exact moment.halts (evaluate_call_of_due due full)

/-! ## The message of a refusal -/

theorem append_ne_of_not_isPrefix {opening rest text : String}
    (apart : ¬ opening.toList <+: text.toList) : opening ++ rest ≠ text := by
  intro same
  apply apart
  rw [← same, String.toList_append]
  exact List.prefix_append _ _

/-- No other fault reads like a call that is one too many, whatever names and texts the fault
holds. -/
theorem RuntimeFault.message_eq_stackOverflow_iff (fault : RuntimeFault) :
    fault.message = "Stack overflow." ↔ fault = .callsTooDeep := by
  constructor
  · intro same
    -- The messages that quote something begin otherwise.
    cases fault with
    | callsTooDeep => rfl
    | undefinedVariable name =>
      change "Undefined variable '" ++ name ++ "'." = _ at same
      rw [String.append_assoc] at same
      exact absurd same (append_ne_of_not_isPrefix (by decide))
    | arityMismatch expected given =>
      change toString "Expected " ++ toString expected ++ toString " arguments but got " ++
        toString given ++ toString "." = _ at same
      simp only [String.append_assoc] at same
      exact absurd same (append_ne_of_not_isPrefix (by decide))
    | unreadableClock error =>
      change "System clock is before the Unix epoch: " ++ error ++ "." = _ at same
      rw [String.append_assoc] at same
      exact absurd same (append_ne_of_not_isPrefix (by decide))
    | unreadableInput error =>
      change "Could not read input: " ++ error ++ "." = _ at same
      rw [String.append_assoc] at same
      exact absurd same (append_ne_of_not_isPrefix (by decide))
    | notNumeric text =>
      change "Can't convert '" ++ text ++ "' to a number." = _ at same
      rw [String.append_assoc] at same
      exact absurd same (append_ne_of_not_isPrefix (by decide))
    | _ => exact absurd same (by decide)
  · intro same
    rw [same]
    rfl

/-! ## Statements, expressions and sessions -/

/-- What a run does with the scope and the depth of the machine that it started on. -/
structure KeepsControl {α : Type} (fuel : Nat) (plan : Plan α) (machine : Machine)
    (result : EStateM.Result Halt Machine α) : Prop where
  /-- However it ends, the scope and the depth are as before. -/
  restored : machine.SameControl (machineAfter result)
  /-- Whatever happens in it happens at a moment of it. -/
  moments : ∀ event ∈ plan.trace (Task.run fuel) (Task.trace fuel) machine,
    ∃ runs, Moment fuel plan machine runs event.machine
  /-- At each moment the depth is that of the start and the number of calls in progress. -/
  counted : ∀ runs now, Moment fuel plan machine runs now → now.depth = machine.depth + callsIn runs
  /-- The depth never exceeds the limit. -/
  limited : machine.depth ≤ 1024 → ∀ runs now, Moment fuel plan machine runs now → now.depth ≤ 1024
  /-- It fails with that message exactly if some call becomes due when there is no room for it. -/
  overflow : ∀ line, (∃ fault after, result = .error (.failure (.runtime line fault)) after ∧
    fault.message = "Stack overflow.") ↔ Overflow fuel plan machine line

theorem Plan.keepsControl {α : Type} {plan : Plan α} (outer : plan.IsOuter) (fuel : Nat)
    (machine : Machine) : KeepsControl fuel plan machine (plan.follow (Task.run fuel) machine) where
  restored := follow_sameControl (Task.run_sameControl fuel) outer machine
  moments event mem := by
    obtain ⟨runs, moment, -⟩ := Moment.of_mem_trace mem
    exact ⟨runs, moment⟩
  counted _ _ moment := moment.depth_eq outer
  limited le _ _ moment := moment.depth_le outer le
  overflow line := by
    simp only [RuntimeFault.message_eq_stackOverflow_iff]
    rw [← follow_eq_tooDeep_iff outer fuel machine line]
    constructor
    · rintro ⟨_, after, failed, rfl⟩
      exact ⟨after, failed⟩
    · rintro ⟨after, failed⟩
      exact ⟨_, after, failed, rfl⟩

theorem programPlan_isOuter (statements : List Stmt) : (programPlan statements).IsOuter := by
  refine (programPlan_startsOnly statements).mono id ?_
  rintro entry task ⟨plain, statement, -, rfl⟩
  exact ⟨plain, rfl⟩

theorem interpret_keepsControl (fuel : Nat) (statements : List Stmt) (machine : Machine) :
    KeepsControl fuel (programPlan statements) machine (interpret fuel statements machine) := by
  rw [interpret_eq_follow]
  exact Plan.keepsControl (programPlan_isOuter statements) fuel machine

theorem Session.afterAll_sameControl (session : Session) (steps : List (Nat × Step)) :
    session.machine.SameControl (session.afterAll steps).machine := by
  induction steps generalizing session with
  | nil => exact .refl _
  | cons step rest ih =>
    have first :=
      (interpret_keepsControl step.1 (step.2.statements session) session.machine).restored
    rw [← Step.machine_perform] at first
    exact first.trans (ih _)

/-- Every statement and every expression keeps the scope and the depth.  After every step of a
session the machine is in the global scope with no call in progress, and the next step keeps the
scope and the depth, too. -/
theorem scope_restored_and_depth_counts_calls :
    (∀ fuel statement machine,
      KeepsControl fuel (signalOf statement) machine (execute fuel statement machine)) ∧
    (∀ fuel expression machine,
      KeepsControl fuel (valueOf expression) machine (evaluate fuel expression machine)) ∧
    ∀ source sink clock steps,
      let session := (Session.initial source sink clock).afterAll steps
      session.machine.current = Scopes.globalId ∧ session.machine.depth = 0 ∧
        ∀ fuel (step : Session.Step),
          KeepsControl fuel (programPlan (step.statements session)) session.machine
          (interpret fuel (step.statements session) session.machine) := by
  refine ⟨?_, ?_, ?_⟩
  · intro fuel statement machine
    have outer : (signalOf statement).IsOuter := startsOnly_start ⟨rfl, rfl⟩
    have keeps := Plan.keepsControl outer fuel machine
    rw [Task.follow_signalOf] at keeps
    exact keeps
  · intro fuel expression machine
    have outer : (valueOf expression).IsOuter := startsOnly_start ⟨rfl, rfl⟩
    have keeps := Plan.keepsControl outer fuel machine
    rw [Task.follow_valueOf] at keeps
    exact keeps
  · intro source sink clock steps session
    have same := Session.afterAll_sameControl (.initial source sink clock) steps
    exact ⟨same.current, same.depth, fun fuel step => interpret_keepsControl fuel _ session.machine⟩

end Lox
