import Lox.Proofs.Machine.Plan
import Lox.Session

/-!
# Traces

The raw chronology of a run: every task that is started, and the machine after every act and after
every task.  A trace records what happens however the run ends, and a task that is started comes
before all that happens in it.

* `Plan.Course`: the ways in which a plan can go, one constructor for each way to go on or to stop.
* `Plan.course`: following a plan is such a course, and its trace is the trace of the plan.
* `Session.events`, `Session.trace`: what happens in a session, and the machines that it passes
  through, from before its first step on.
-/

namespace Lox

/-- The machine that is left behind. -/
def machineAfter {α : Type} : EStateM.Result Halt Machine α → Machine
  | .ok _ machine => machine
  | .error _ machine => machine

/-- A task, its fuel, and the machine that it is started on. -/
structure Run where
  fuel : Nat
  task : Task
  machine : Machine

inductive Event where
  | starts (run : Run)
  | passes (machine : Machine)

def Event.machine : Event → Machine
  | .starts run => run.machine
  | .passes machine => machine

namespace Plan

variable {α : Type}

/-- What happens when a plan is followed, where `run` tells how tasks run and `traceOf` what happens
in them. -/
def trace (run : (task : Task) → Eval task.Result) (traceOf : Task → Machine → List Event) :
    Plan α → Machine → List Event
  | .done _, _ => []
  | .act action next, machine =>
    match action.perform machine with
    | .ok value after => .passes after :: (next value).trace run traceOf after
    | .error _ after => [.passes after]
  | .start entry task next, machine =>
    match entry.enter machine with
    | .error _ => []
    | .ok inner =>
      traceOf task inner ++
        match run task inner with
        | .ok result after =>
          .passes (entry.leave machine after) :: (next result).trace run traceOf
            (entry.leave machine after)
        | .error _ after => [.passes (entry.leave machine after)]

/-- A plan goes this way: it starts on a machine, this happens, and it ends so. -/
inductive Course (run : (task : Task) → Eval task.Result) (traceOf : Task → Machine → List Event) :
    Plan α → Machine → List Event → EStateM.Result Halt Machine α → Prop
  | done {value machine} : Course run traceOf (.done value) machine [] (.ok value machine)
  | acted {β : Type} {action : Act β} {next machine value after events result} :
      action.perform machine = .ok value after →
      Course run traceOf (next value) after events result →
      Course run traceOf (.act action next) machine (.passes after :: events) result
  | stopped {β : Type} {action : Act β} {next machine halt after} :
      action.perform machine = .error halt after →
      Course run traceOf (.act action next) machine [.passes after] (.error halt after)
  | refused {entry task next machine halt} :
      entry.enter machine = .error halt →
      Course run traceOf (.start entry task next) machine [] (.error halt machine)
  | returned {entry task next machine inner value after events result} :
      entry.enter machine = .ok inner →
      run task inner = .ok value after →
      Course run traceOf (next value) (entry.leave machine after) events result →
      Course run traceOf (.start entry task next) machine
        (traceOf task inner ++ .passes (entry.leave machine after) :: events) result
  | halted {entry task next machine inner halt after} :
      entry.enter machine = .ok inner →
      run task inner = .error halt after →
      Course run traceOf (.start entry task next) machine
        (traceOf task inner ++ [.passes (entry.leave machine after)])
          (.error halt (entry.leave machine after))

theorem course (run : (task : Task) → Eval task.Result) (traceOf : Task → Machine → List Event)
    (plan : Plan α) (machine : Machine) :
    Course run traceOf plan machine (plan.trace run traceOf machine) (plan.follow run machine) := by
  induction plan generalizing machine with
  | done value => exact .done
  | act action next ih =>
    have follows : (act action next).follow run machine =
        EStateM.bind action.perform (fun value => (next value).follow run) machine := rfl
    rw [follows, EStateM.bind, trace]
    cases performed : action.perform machine with
    | ok value after => exact .acted performed (ih value after)
    | error halt after => exact .stopped performed
  | start entry task next ih =>
    have follows : (start entry task next).follow run machine =
        EStateM.bind (entry.around (run task)) (fun result => (next result).follow run) machine :=
          rfl
    rw [follows, EStateM.bind, Entry.around, trace]
    cases entered : entry.enter machine with
    | error halt => exact .refused entered
    | ok inner =>
      cases ran : run task inner with
      | ok value after =>
        simpa only [ran] using Course.returned entered ran (ih value (entry.leave machine after))
      | error halt after => simpa only [ran] using Course.halted entered ran

end Plan

namespace Task

def trace : Nat → Task → Machine → List Event
  | 0, task, machine => [.starts ⟨0, task, machine⟩]
  | fuel + 1, task, machine =>
    .starts ⟨fuel + 1, task, machine⟩ :: task.plan.trace (Task.run fuel) (trace fuel) machine

end Task

/-- What happens when a program is run. -/
def programTrace (fuel : Nat) (statements : List Stmt) (machine : Machine) : List Event :=
  (programPlan statements).trace (Task.run fuel) (Task.trace fuel) machine

/-! ## Sessions -/

def Progress.value {α : Type} : Progress α → α
  | .finished value | .suspended value => value

namespace Session

/-- What can be done in a session. -/
inductive Step where
  | run (source : String)
  | force (source : String)
  | forceTokens (tokens : List Token)
  | clear

namespace Step

def perform (fuel : Nat) (session : Session) : Step → Progress Session
  | .run source => session.run fuel source
  | .force source => session.force fuel source
  | .forceTokens tokens => session.forceTokens fuel tokens
  | .clear => .finished session.clear

/-- The statements that a step runs. -/
def statements (session : Session) : Step → List Stmt
  | .run source =>
    if (session.load source).2.diagnostics.hadStatic then [] else (session.load source).1
  | .force source => (session.load source).1
  | .forceTokens tokens => (session.parse tokens).1
  | .clear => []

theorem machine_interpret (fuel : Nat) (program : List Stmt) (session : Session) :
    (session.interpret fuel program).value.machine =
      machineAfter (Lox.interpret fuel program session.machine) := by
  rcases session with ⟨machine, diagnostics⟩
  simp only [Session.interpret]
  rcases Lox.interpret fuel program machine with ⟨_, after⟩ | ⟨halt, after⟩
  · rfl
  · cases halt <;> rfl

theorem machine_load (source : String) (session : Session) :
    (session.load source).2.machine = session.machine := by
  unfold Session.load
  split
  rfl

theorem machine_perform (fuel : Nat) (session : Session) (step : Step) :
    (step.perform fuel session).value.machine =
      machineAfter (Lox.interpret fuel (step.statements session) session.machine) := by
  cases step with
  | run source =>
    have same := machine_load source session
    simp only [perform, statements, Session.run]
    split
    · exact same
    · rw [machine_interpret, same]
  | force source =>
    have same := machine_load source session
    simp only [perform, statements, Session.force]
    rw [machine_interpret, same]
  | forceTokens tokens =>
    simp only [perform, statements, Session.forceTokens]
    rw [machine_interpret]
    rfl
  | clear => rfl

end Step

/-- The session after steps, each with a fuel of its own. -/
def afterAll (session : Session) (steps : List (Nat × Step)) : Session :=
  steps.foldl (fun session step => (step.2.perform step.1 session).value) session

/-- The machines that a session passes through, where each step has a fuel of its own.  A step that
is suspended is the last one. -/
def trace : List (Nat × Step) → Session → List Machine
  | [], session => [session.machine]
  | (fuel, step) :: rest, session =>
    session.machine :: (programTrace fuel (step.statements session) session.machine).map
      Event.machine ++
      match step.perform fuel session with
      | .finished after => trace rest after
      | .suspended after => [after.machine]

/-- What happens in a session, where each step has a fuel of its own. -/
def events : List (Nat × Step) → Session → List Event
  | [], session => [.passes session.machine]
  | (fuel, step) :: rest, session =>
    .passes session.machine :: programTrace fuel (step.statements session) session.machine ++
      match step.perform fuel session with
      | .finished after => events rest after
      | .suspended after => [.passes after.machine]

/-- The machines that a session passes through are those of what happens in it. -/
theorem trace_eq_map_events (steps : List (Nat × Step)) (session : Session) :
    trace steps session = (events steps session).map Event.machine := by
  induction steps generalizing session with
  | nil => rfl
  | cons first rest ih =>
    rcases first with ⟨fuel, step⟩
    cases performed : step.perform fuel session with
    | finished after =>
      simp only [trace, events, performed, List.map_append, List.map_cons, ih, Event.machine]
    | suspended after =>
      simp only [trace, events, performed, List.map_append, List.map_cons, List.map_nil,
        Event.machine]

/-- After its first step a session goes on from there, unless the step was suspended. -/
theorem exists_events_cons (fuel : Nat) (step : Step) (rest : List (Nat × Step))
    (session : Session) :
    ∃ further, (further = rest ∨ further = []) ∧
      events ((fuel, step) :: rest) session =
        .passes session.machine :: (programTrace fuel (step.statements session) session.machine ++
          events further (step.perform fuel session).value) := by
  cases performed : step.perform fuel session with
  | finished after =>
    refine ⟨rest, .inl rfl, ?_⟩
    simp only [events, performed, List.cons_append]
    rfl
  | suspended after =>
    refine ⟨[], .inr rfl, ?_⟩
    simp only [events, performed, List.cons_append]
    rfl

/-- A machine that some session passes through. -/
def Passes (machine : Machine) : Prop :=
  ∃ steps source sink clock, machine ∈ trace steps (.initial source sink clock)

end Session

end Lox
