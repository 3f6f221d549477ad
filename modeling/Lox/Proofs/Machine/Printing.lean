import Lox.Proofs.Machine.Console

/-!
# What a run prints

The output of a run is the lines that its `print` statements print, in the order in which they are
executed, in whatever calls and loops.  An attempt to print fails at most once, since it stops the
program for good, and nothing else stops it for want of output.

* `Task.attempts`, `printAttempts`: the attempts to print that a run makes, in order.
* `Accounted`: the attempts account for the output, and for a stop because of it.
* `interpret_accounted`: they do so in every program, by induction on the fuel.
-/

namespace Lox

open Plan Eval

/-- An attempt to print a text, and the output at that time. -/
structure Attempt where
  text : String
  sink : Sink

namespace Attempt

/-- The text or its line end could not be written. -/
def Fails (attempt : Attempt) : Prop :=
  ∃ error after, attempt.sink.writeLine attempt.text = .error error after

/-- What an attempt adds to the output: the text and its line end, as far as they could be
written. -/
def written (attempt : Attempt) : String :=
  match attempt.sink.write attempt.text with
  | .error _ => ""
  | .ok middle =>
    match middle.write "\n" with
    | .error _ => attempt.text
    | .ok _ => attempt.text ++ "\n"

/-- A failed attempt leaves what it could write. -/
theorem text_of_writeLine_error (attempt : Attempt) {error : String} {after : Sink}
    (failed : attempt.sink.writeLine attempt.text = .error error after) :
    after.text = attempt.sink.text ++ attempt.written := by
  unfold written
  rcases attempt.sink.writeLine_cases attempt.text with ⟨other, first, refused⟩ |
    ⟨middle, other, first, second, refused⟩ | ⟨middle, last, -, -, ended⟩
  · rw [refused] at failed
    cases failed
    simp only [first, String.append_empty]
  · rw [refused] at failed
    cases failed
    simp only [first, second]
    exact Sink.text_of_write first
  · rw [ended] at failed
    cases failed

theorem written_of_not_fails {attempt : Attempt} (succeeds : ¬ attempt.Fails) :
    attempt.written = attempt.text ++ "\n" := by
  unfold written
  rcases attempt.sink.writeLine_cases attempt.text with ⟨error, -, failed⟩ |
    ⟨middle, error, -, -, failed⟩ | ⟨middle, after, first, second, -⟩
  · exact absurd ⟨error, _, failed⟩ succeeds
  · exact absurd ⟨error, _, failed⟩ succeeds
  · simp only [first, second]

end Attempt

/-- What attempts add to the output, one after the other. -/
def allWritten (attempts : List Attempt) : String := String.join (attempts.map Attempt.written)

theorem allWritten_append (attempts others : List Attempt) :
    allWritten (attempts ++ others) = allWritten attempts ++ allWritten others := by
  simp [allWritten, String.join_append]

theorem allWritten_of_not_fails {attempts : List Attempt}
    (succeed : ∀ attempt ∈ attempts, ¬ attempt.Fails) :
    allWritten attempts = String.join (attempts.map fun attempt => attempt.text ++ "\n") := by
  have written : attempts.map Attempt.written = attempts.map fun attempt => attempt.text ++ "\n" :=
    List.map_congr_left fun attempt mem => Attempt.written_of_not_fails (succeed attempt mem)
  rw [allWritten, written]

/-- The attempt to print that an act is. -/
def Act.attempts {α : Type} (machine : Machine) : Act α → List Attempt
  | .print text => [⟨text, machine.sink⟩]
  | _ => []

/-- The attempts to print when a plan is followed, where `run` tells how tasks run and `attemptsOf`
what they try to print. -/
def Plan.attempts {α : Type} (run : (task : Task) → Eval task.Result)
    (attemptsOf : Task → Machine → List Attempt) :
    Plan α → Machine → List Attempt
  | .done _, _ => []
  | .act action next, machine =>
    action.attempts machine ++
      match action.perform machine with
      | .ok value after => (next value).attempts run attemptsOf after
      | .error _ _ => []
  | .start entry task next, machine =>
    match entry.enter machine with
    | .error _ => []
    | .ok inner =>
      attemptsOf task inner ++
        match run task inner with
        | .ok result after => (next result).attempts run attemptsOf (entry.leave machine after)
        | .error _ _ => []

/-- The attempts to print in a task. -/
def Task.attempts : Nat → Task → Machine → List Attempt
  | 0, _, _ => []
  | fuel + 1, task, machine => task.plan.attempts (Task.run fuel) (attempts fuel) machine

/-- The attempts to print in a program. -/
def printAttempts (fuel : Nat) (statements : List Stmt) (machine : Machine) : List Attempt :=
  (programPlan statements).attempts (Task.run fuel) (Task.attempts fuel) machine

/-! ## Accounts -/

/-- The program was stopped since its output could not be written. -/
def Halt.IsUnwritable (halt : Halt) : Prop := ∃ error, halt = .failure (.output error)

/-- The run was stopped since its output could not be written. -/
def Unwritable {α : Type} (result : EStateM.Result Halt Machine α) : Prop :=
  ∃ halt after, result = .error halt after ∧ halt.IsUnwritable

/-- The attempts are those of a run from the machine to the result. -/
structure Accounted {α : Type} (machine : Machine) (attempts : List Attempt)
    (result : EStateM.Result Halt Machine α) : Prop where
  /-- The output is what was there before and what the attempts added. -/
  output : (machineAfter result).sink.text = machine.sink.text ++ allWritten attempts
  /-- A failed attempt stops the run, and nothing else stops it for that reason. -/
  unwritable : Unwritable result ↔ ∃ attempt ∈ attempts, attempt.Fails

theorem not_unwritable_ok {α : Type} (value : α) (machine : Machine) :
    ¬ Unwritable (.ok value machine) := by
  rintro ⟨halt, after, same, -⟩
  cases same

theorem unwritable_error_iff {α : Type} {halt : Halt} {machine : Machine} :
    Unwritable (.error halt machine : EStateM.Result Halt Machine α) ↔ halt.IsUnwritable := by
  constructor
  · rintro ⟨halt, after, same, isUnwritable⟩
    cases same
    exact isUnwritable
  · intro isUnwritable
    exact ⟨halt, machine, rfl, isUnwritable⟩

namespace Accounted

variable {α β : Type} {machine middle : Machine} {attempts others : List Attempt}

/-- Without an attempt nothing is written. -/
theorem none {result : EStateM.Result Halt Machine α}
    (sink : (machineAfter result).sink = machine.sink) (other : ¬ Unwritable result) :
    Accounted machine [] result where
  output := by
    rw [sink]
    exact String.append_empty.symm
  unwritable := by
    constructor
    · intro unwritable
      exact absurd unwritable other
    · rintro ⟨attempt, mem, -⟩
      cases mem

theorem append {value : α} {result : EStateM.Result Halt Machine β}
    (first : Accounted machine attempts (.ok value middle))
    (rest : Accounted middle others result) : Accounted machine (attempts ++ others) result where
  output := by
    rw [rest.output, allWritten_append, ← String.append_assoc]
    exact congrArg (· ++ allWritten others) first.output
  unwritable := by
    rw [rest.unwritable]
    constructor
    · rintro ⟨attempt, mem, fails⟩
      exact ⟨attempt, List.mem_append_right _ mem, fails⟩
    · rintro ⟨attempt, mem, fails⟩
      -- The first part came to its end, so none of its attempts failed.
      rcases List.mem_append.1 mem with before | after
      · exact absurd (first.unwritable.2 ⟨attempt, before, fails⟩) (not_unwritable_ok value middle)
      · exact ⟨attempt, after, fails⟩

theorem halted {halt : Halt}
    (stopped : Accounted machine attempts (.error halt middle : EStateM.Result Halt Machine α)) :
    Accounted machine attempts (.error halt middle : EStateM.Result Halt Machine β) where
  output := stopped.output
  unwritable := unwritable_error_iff.trans (unwritable_error_iff.symm.trans stopped.unwritable)

end Accounted

/-! ## Acts -/

theorem not_unwritable_fail {α : Type} (line : Nat) (fault : RuntimeFault) (machine : Machine) :
    ¬ Unwritable (Eval.fail line fault machine : EStateM.Result Halt Machine α) := by
  rintro ⟨halt, after, same, error, rfl⟩
  cases same

theorem Fixed.not_unwritable {α : Type} {run : Eval α} (fixed : Fixed run) (machine : Machine) :
    ¬ Unwritable (run machine) := by
  cases fixed with
  | value value => exact not_unwritable_ok value machine
  | fails other => exact not_unwritable_fail _ _ machine

theorem not_unwritable_readClock (line : Nat) (machine : Machine) :
    ¬ Unwritable (Native.readClock line machine) := by
  unfold Native.readClock
  rcases machine.clock.read with ⟨time, clock⟩
  cases time with
  | ok time => exact not_unwritable_ok _ _
  | error error => exact not_unwritable_fail line _ _

theorem not_unwritable_readLine (line : Nat) (machine : Machine) :
    ¬ Unwritable (Native.readLine line machine) := by
  unfold Native.readLine
  rcases machine.source.read with ⟨reading, source⟩
  cases reading with
  | line text => exact not_unwritable_ok _ _
  | ended => exact not_unwritable_ok _ _
  | failed error => exact not_unwritable_fail line _ _
  | pending =>
    rintro ⟨halt, after, same, error, rfl⟩
    cases same

theorem Eval.print_accounted (text : String) (machine : Machine) :
    Accounted machine [⟨text, machine.sink⟩] (Eval.print text machine) := by
  unfold Eval.print
  split
  · next sink written =>
    have succeeds : ¬ Attempt.Fails ⟨text, machine.sink⟩ := by
      rintro ⟨error, after, failed⟩
      rw [written] at failed
      cases failed
    constructor
    · rw [allWritten, List.map_singleton, Attempt.written_of_not_fails succeeds]
      simpa [machineAfter] using Sink.text_of_writeLine written
    · simpa using iff_of_false (not_unwritable_ok () { machine with sink }) succeeds
  · next error sink failed =>
    have fails : Attempt.Fails ⟨text, machine.sink⟩ := ⟨error, sink, failed⟩
    constructor
    · rw [allWritten, List.map_singleton]
      simpa [machineAfter] using Attempt.text_of_writeLine_error ⟨text, machine.sink⟩ failed
    · simpa using iff_of_true (unwritable_error_iff.2 ⟨error, rfl⟩) fails

theorem Act.perform_accounted {α : Type} (action : Act α) (machine : Machine) :
    Accounted machine (action.attempts machine) (action.perform machine) := by
  have apart : ∀ {β : Type} {action : Act β}, action.usesConsole = false →
      (machineAfter (action.perform machine)).sink = machine.sink :=
    fun unused => ((disconnected unused).connectedTo_eq machine).2
  cases action with
  | lookup name =>
    refine .none (apart rfl) ?_
    simp only [perform, Eval.lookup]
    split
    · exact not_unwritable_ok _ _
    · exact not_unwritable_fail _ _ _
  | assign name value =>
    refine .none (apart rfl) ?_
    simp only [perform, Eval.assign]
    split
    · exact not_unwritable_ok _ _
    · exact not_unwritable_fail _ _ _
  | define name value => exact .none rfl (not_unwritable_ok _ _)
  | declare name params body => exact .none rfl (not_unwritable_ok _ _)
  | unary op line operand =>
    exact .none (apart rfl) ((Fixed.unary op line operand).not_unwritable machine)
  | binary op line left right =>
    exact .none (apart rfl) ((Fixed.binary op line left right).not_unwritable machine)
  | callee line value => exact .none (apart rfl) ((Fixed.callee line value).not_unwritable machine)
  | arity line callable arguments =>
    exact .none (apart rfl) ((Fixed.arity line callable arguments).not_unwritable machine)
  | native primitive line arguments =>
    cases primitive with
    | clock => exact .none (apart rfl) (not_unwritable_readClock line machine)
    | input =>
      have read : machineAfter ((Act.native .input line arguments).perform machine) =
          { machine with source := machine.source.read.2 } :=
            Native.machineAfter_readLine line machine
      refine .none ?_ (not_unwritable_readLine line machine)
      rw [read]
    | number => exact .none (apart rfl) ((Fixed.number line _).not_unwritable machine)
  | print text => exact Eval.print_accounted text machine
  | fail line fault => exact .none rfl (not_unwritable_fail line fault machine)

/-! ## Whole runs -/

theorem Entry.leave_accounted {α : Type} {entry : Entry} {machine inner : Machine}
    (entered : entry.enter machine = .ok inner) {attempts : List Attempt}
    {result : EStateM.Result Halt Machine α} (inside : Accounted inner attempts result) :
    Accounted machine attempts (leaving (entry.leave machine) result) where
  output := by
    rw [machineAfter_leaving, (entry.leave_console machine _).2, inside.output,
      (enter_console entered).2]
  unwritable := by
    rw [← inside.unwritable]
    cases result with
    | ok value after => exact iff_of_false (not_unwritable_ok _ _) (not_unwritable_ok _ _)
    | error halt after => exact unwritable_error_iff.trans unwritable_error_iff.symm

theorem Plan.follow_accounted {α : Type} {run : (task : Task) → Eval task.Result}
    {attemptsOf : Task → Machine → List Attempt}
    (tasks : ∀ task inner, Accounted inner (attemptsOf task inner) (run task inner)) (plan : Plan α)
    (machine : Machine) :
    Accounted machine (plan.attempts run attemptsOf machine) (plan.follow run machine) := by
  induction plan generalizing machine with
  | done value => exact .none rfl (not_unwritable_ok value machine)
  | act action next ih =>
    have first := action.perform_accounted machine
    cases performed : action.perform machine with
    | ok value after =>
      rw [performed] at first
      simp only [follow_acted performed, attempts, performed]
      exact first.append (ih value after)
    | error halt after =>
      rw [performed] at first
      have stopped : (act action next).follow run machine = .error halt after :=
        bind_of_error performed
      simp only [stopped, attempts, performed, List.append_nil]
      exact first.halted
  | start entry task next ih =>
    cases entered : entry.enter machine with
    | error halt =>
      have refused : (start entry task next).follow run machine = .error halt machine :=
        bind_of_error (Entry.around_of_refused entered)
      simp only [refused, attempts, entered]
      refine .none rfl ?_
      obtain ⟨line, -, rfl, -⟩ := Entry.enter_eq_error entered
      exact not_unwritable_fail line .callsTooDeep machine
    | ok inner =>
      have inside := Entry.leave_accounted entered (tasks task inner)
      cases ran : run task inner with
      | ok value after =>
        rw [ran] at inside
        simp only [follow_returned entered ran, attempts, entered, ran]
        exact inside.append (ih value _)
      | error halt after =>
        rw [ran] at inside
        simp only [follow_halted entered ran, attempts, entered, ran, List.append_nil]
        exact inside.halted

theorem Task.run_accounted (fuel : Nat) (task : Task) (machine : Machine) :
    Accounted machine (task.attempts fuel machine) (task.run fuel machine) := by
  induction fuel generalizing task machine with
  | zero =>
    rw [Task.run_zero]
    refine .none rfl ?_
    rintro ⟨halt, after, same, error, rfl⟩
    cases same
  | succ fuel ih =>
    rw [Task.run_succ]
    exact follow_accounted ih task.plan machine

/-- The attempts to print in a program account for its output. -/
theorem interpret_accounted (fuel : Nat) (statements : List Stmt) (machine : Machine) :
    Accounted machine (printAttempts fuel statements machine)
      (interpret fuel statements machine) := by
  rw [interpret_eq_follow]
  exact follow_accounted (Task.run_accounted fuel) (programPlan statements) machine

end Lox
