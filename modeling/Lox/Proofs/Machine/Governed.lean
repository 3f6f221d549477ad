import Lox.Proofs.Machine.Flow

/-!
# Runs within a discipline

What a discipline allows is known of the values and the statements of a run, so a run that starts
within a discipline stays within it: in the tasks that it starts, on the machines that it passes
through, and at its end.

* `Discipline.flow`: a discipline as a flow of values, which grows with the number of scopes.
* `Task.plan_obeys`: what a task plans is allowed if the task is.
* `Task.governed`, `interpret_governed`: what whole runs keep, by induction on the fuel.
-/

namespace Lox

open Plan

namespace Discipline

variable (D : Discipline)

/-- The discipline allows a task. -/
def Admits (count : Nat) : Task → Prop
  | .evaluate _ | .evaluateAll _ | .evaluateOption _ => True
  | .invoke callable _ arguments =>
    D.Knows count (.callable callable) ∧ ∀ value ∈ arguments, D.Knows count value
  | .execute statement => D.code statement
  | .executeAll statements => ∀ statement ∈ statements, D.code statement
  | .loop _ body => D.code body

/-- What is known of what a task gives. -/
def Gives (count : Nat) : (task : Task) → task.Result → Prop
  | .evaluate _, value | .evaluateOption _, value | .invoke _ _ _, value => D.Knows count value
  | .evaluateAll _, values => ∀ value ∈ values, D.Knows count value
  | .execute _, signal | .executeAll _, signal | .loop _ _, signal => D.Knows count signal.result

variable {D}

theorem admits_mono {count later : Nat} (le : count ≤ later) {task : Task}
    (admitted : D.Admits count task) : D.Admits later task := by
  cases task with
  | invoke callable line arguments =>
    exact ⟨knows_mono le admitted.1, fun value mem => knows_mono le (admitted.2 value mem)⟩
  | _ => exact admitted

end Discipline

namespace Plan

variable {α : Type}

/-- The acts and the tasks of a plan are allowed, and its value is of the given kind.  What is known
of a value stays known when more scopes exist. -/
def Obeys (D : Discipline) (Good : Nat → α → Prop) : Plan α → Nat → Prop
  | .done value, count => Good count value
  | .act action next, count =>
    D.Permits count action ∧
      ∀ later value, count ≤ later → D.Yields later action value → (next value).Obeys D Good later
  | .start entry task next, count =>
    entry.Granted D count ∧ D.Admits count task ∧
      ∀ later result, count ≤ later → D.Gives later task result → (next result).Obeys D Good later

end Plan

open Discipline

/-- What a discipline allows, as a flow of values.  It grows with the number of scopes. -/
def Discipline.flow (D : Discipline) : Flow where
  World := Nat
  le count later := count ≤ later
  le_refl := Nat.le_refl
  le_trans := Nat.le_trans
  knows := D.Knows
  knows_mono le known := Discipline.knows_mono le known
  knows_plain plain := Discipline.knows_plain plain
  code := D.code
  code_parts := D.code_parts
  code_declaration known := known.1
  declares := True

variable {D : Discipline} {count : Nat}

theorem Plan.Obeys.of_flows {α : Type} {plan : Plan α} {Good Fine : Nat → α → Prop}
    (flows : plan.Flows D.flow Good count)
    (imp : ∀ count value, Good count value → Fine count value) : plan.Obeys D Fine count := by
  induction plan generalizing count with
  | done value => exact imp count value flows
  | act action next ih =>
    rcases flows with ⟨permitted, further⟩
    constructor
    · cases action with
      | declare name params body => exact permitted.2
      | _ => exact permitted
    · intro later value le yields
      apply ih value (further later value le ?_)
      cases action <;> exact yields
  | start entry task next ih =>
    rcases flows with ⟨granted, admitted, further⟩
    refine ⟨?_, ?_, ?_⟩
    · cases entry with
      | frame enclosing bindings =>
        rcases granted with ⟨⟨closure, known, rfl⟩, bound⟩
        exact ⟨known.2, bound⟩
      | _ => trivial
    · cases task <;> exact admitted
    · intro later result le gives
      apply ih result (further later result le ?_)
      cases task <;> exact gives

/-- A task that the discipline allows does only what it allows. -/
theorem Task.plan_obeys {task : Task} (admitted : D.Admits count task) :
    task.plan.Obeys D (fun count result => D.Gives count task result) count := by
  have known : D.flow.Admits count task := by cases task <;> exact admitted
  refine Obeys.of_flows (Task.plan_flows known fun _ _ _ _ => trivial) ?_
  intro count result gives
  cases task <;> exact gives

theorem programPlan_obeys {statements : List Stmt}
    (code : ∀ statement ∈ statements, D.code statement) :
    (programPlan statements).Obeys D (fun _ _ => True) count :=
  .of_flows (programPlan_flows code) fun _ _ _ => trivial

/-! ## Runs -/

/-- From one machine to another through the given events, with the stores of each two in a row
related. -/
inductive Travels (R : Scopes → Scopes → Prop) : Machine → List Event → Machine → Prop
  | arrive {machine last} : R machine.scopes last.scopes → Travels R machine [] last
  | pass {machine event events last} : R machine.scopes event.machine.scopes →
      Travels R event.machine events last → Travels R machine (event :: events) last

namespace Travels

variable {R : Scopes → Scopes → Prop} {first middle last : Machine} {events more : List Event}

theorem prepend (trans : ∀ {a b c}, R a b → R b c → R a c) (start : R first.scopes middle.scopes)
    (travels : Travels R middle events last) : Travels R first events last := by
  cases travels with
  | arrive related => exact .arrive (trans start related)
  | pass related travels => exact .pass (trans start related) travels

theorem append (trans : ∀ {a b c}, R a b → R b c → R a c) (travels : Travels R first events middle)
    (further : Travels R middle more last) : Travels R first (events ++ more) last := by
  induction travels with
  | arrive related => exact prepend trans related further
  | pass related _ ih => exact .pass related (ih further)

theorem related (trans : ∀ {a b c}, R a b → R b c → R a c) (travels : Travels R first events last) :
    R first.scopes last.scopes := by
  induction travels with
  | arrive related => exact related
  | pass related _ ih => exact trans related ih

/-- Each machine on the way is related to each later one, and to those that the last one is related
to. -/
theorem pairwise (trans : ∀ {a b c}, R a b → R b c → R a c) (travels : Travels R first events last)
    {later : List Machine} (fromLast : ∀ machine ∈ later, R last.scopes machine.scopes)
    (among : later.Pairwise fun machine other => R machine.scopes other.scopes) :
    (first :: (events.map Event.machine ++ later)).Pairwise fun machine other =>
    R machine.scopes other.scopes := by
  induction travels with
  | arrive related =>
    exact List.pairwise_cons.2 ⟨fun machine mem => trans related (fromLast machine mem), among⟩
  | @pass first event events last related travels ih =>
    have rest := ih fromLast
    refine List.pairwise_cons.2 ⟨?_, rest⟩
    intro machine mem
    rw [List.map_cons, List.cons_append, List.mem_cons] at mem
    rcases mem with rfl | mem
    · exact related
    · exact trans related ((List.pairwise_cons.1 rest).1 machine mem)

end Travels

namespace Discipline

/-- What happens is within the discipline. -/
def Fits (D : Discipline) : Event → Prop
  | .starts run => D.Holds run.machine ∧ D.Admits run.machine.scopes.nextId run.task
  | .passes machine => D.Holds machine

theorem Fits.machine_holds {event : Event} (fits : D.Fits event) : D.Holds event.machine := by
  cases event with
  | starts run => exact fits.1
  | passes machine => exact fits

/-- A run that started on a machine keeps to the discipline: in all that happens, in how the store
changes, and in how it ends. -/
structure Governs {α : Type} (D : Discipline) (machine : Machine) (events : List Event)
    (Good : Nat → α → Prop) (result : EStateM.Result Halt Machine α) : Prop where
  fits : ∀ event ∈ events, D.Fits event
  travels : Travels D.Grows machine events (machineAfter result)
  holds : D.Holds (machineAfter result)
  good : ∀ value after, result = .ok value after → Good after.scopes.nextId value

namespace Governs

variable {α β : Type} {machine middle : Machine} {events more : List Event} {Good : Nat → α → Prop}
  {Fine : Nat → β → Prop} {result : EStateM.Result Halt Machine α}

theorem grows (governed : D.Governs machine events Good result) :
    D.Grows machine.scopes (machineAfter result).scopes :=
  governed.travels.related .trans

theorem of_meets (meets : D.Meets machine Good result) :
    D.Governs machine [.passes (machineAfter result)] Good result := by
  cases result with
  | ok value after =>
    rcases meets with ⟨holds, grow, good⟩
    refine ⟨List.forall_mem_singleton.2 holds, .pass grow (.arrive (.refl _)), holds, ?_⟩
    intro _ _ same
    cases same
    exact good
  | error halt after =>
    rcases meets with ⟨holds, grow⟩
    refine ⟨List.forall_mem_singleton.2 holds, .pass grow (.arrive (.refl _)), holds, ?_⟩
    intro _ _ same
    cases same

/-- One run goes on from the end of another one. -/
theorem append {value : β} (first : D.Governs machine events Fine (.ok value middle))
    (second : D.Governs middle more Good result) :
    D.Governs machine (events ++ more) Good result where
  fits event mem := by
    rcases List.mem_append.1 mem with earlier | later
    · exact first.fits event earlier
    · exact second.fits event later
  travels := first.travels.append .trans second.travels
  holds := second.holds
  good := second.good

end Governs

end Discipline

section Start

variable {run : (task : Task) → Eval task.Result} {traceOf : Task → Machine → List Event}

/-- A task that is started on the machine that it is entered with, seen from the machine before. -/
theorem Entry.governed {entry : Entry} {task : Task} {machine inner : Machine}
    (holds : D.Holds machine) (granted : entry.Granted D machine.scopes.nextId)
    (entered : entry.enter machine = .ok inner)
    (below : D.Holds inner → machine.scopes.nextId ≤ inner.scopes.nextId →
      D.Governs inner (traceOf task inner) (fun count result => D.Gives count task result)
        (run task inner)) :
    D.Governs machine
      (traceOf task inner ++ [.passes (machineAfter (entry.around (run task) machine))])
      (fun count result => D.Gives count task result) (entry.around (run task) machine) := by
  rcases enter_holds holds granted entered with ⟨holdsInner, growInner⟩
  have inside := below holdsInner growInner.count_le
  have left :
      D.Meets (machineAfter (run task inner)) (fun count result => D.Gives count task result)
      (entry.around (run task) machine) := by
    have holdsLeft := entry.leave_holds holds inside.holds (growInner.trans inside.grows)
    have back : D.Grows (machineAfter (run task inner)).scopes
        (entry.leave machine (machineAfter (run task inner))).scopes := by
      rw [leave_scopes]
      exact .refl _
    cases ran : run task inner with
    | ok value after =>
      have gives := inside.good value after ran
      simp only [around, entered, ran, machineAfter] at holdsLeft back ⊢
      refine ⟨holdsLeft, back, ?_⟩
      rw [leave_scopes]
      exact gives
    | error halt after =>
      simp only [around, entered, ran, machineAfter] at holdsLeft back ⊢
      exact ⟨holdsLeft, back⟩
  have last := Governs.of_meets left
  refine ⟨?_, ?_, last.holds, last.good⟩
  · intro event mem
    rcases List.mem_append.1 mem with earlier | later
    · exact inside.fits event earlier
    · exact last.fits event later
  · exact (inside.travels.prepend .trans growInner).append .trans last.travels

theorem Plan.Course.governed {α : Type} {Good : Nat → α → Prop} {plan : Plan α} {machine : Machine}
    {events : List Event} {result : EStateM.Result Halt Machine α}
    (tasks : ∀ task inner, D.Holds inner → D.Admits inner.scopes.nextId task →
      D.Governs inner (traceOf task inner) (fun count result => D.Gives count task result)
        (run task inner))
    (course : Course run traceOf plan machine events result) (holds : D.Holds machine)
    (obeys : plan.Obeys D Good machine.scopes.nextId) : D.Governs machine events Good result := by
  induction course with
  | done =>
    refine ⟨by simp, .arrive (.refl _), holds, ?_⟩
    intro _ _ same
    cases same
    exact obeys
  | @acted β action next machine value after events result performed course ih =>
    have first := Governs.of_meets (action.meets holds obeys.1)
    rw [performed] at first
    exact first.append
      (ih first.holds (obeys.2 _ value first.grows.count_le (first.good value after rfl)))
  | @stopped β action next machine halt after performed =>
    have only := Governs.of_meets (action.meets holds obeys.1)
    rw [performed] at only
    exact ⟨only.fits, only.travels, only.holds, by simp⟩
  | refused entered => exact ⟨by simp, .arrive (.refl _), holds, by simp⟩
  | @returned entry task next machine inner value after events result entered ran course ih =>
    have first := Entry.governed holds obeys.1 entered fun holdsInner le =>
      tasks task inner holdsInner (admits_mono le obeys.2.1)
    simp only [Entry.around, entered, ran, machineAfter] at first
    have rest := ih first.holds (obeys.2.2 _ value first.grows.count_le (first.good value _ rfl))
    rw [List.append_cons]
    exact first.append rest
  | @halted entry task next machine inner halt after entered ran =>
    have only := Entry.governed holds obeys.1 entered fun holdsInner le =>
      tasks task inner holdsInner (admits_mono le obeys.2.1)
    simp only [Entry.around, entered, ran, machineAfter] at only
    exact ⟨only.fits, only.travels, only.holds, by simp⟩

end Start

/-- A task that is started within the discipline keeps to it. -/
theorem Task.governed (fuel : Nat) (task : Task) (machine : Machine) (holds : D.Holds machine)
    (admitted : D.Admits machine.scopes.nextId task) :
    D.Governs machine (task.trace fuel machine) (fun count result => D.Gives count task result)
      (task.run fuel machine) := by
  induction fuel generalizing task machine with
  | zero =>
    rw [Task.run_zero]
    refine ⟨List.forall_mem_singleton.2 ⟨holds, admitted⟩,
      .pass (.refl _) (.arrive (.refl _)), holds, ?_⟩
    intro _ _ same
    cases same
  | succ fuel ih =>
    rw [Task.run_succ]
    have rest := (Plan.course (Task.run fuel) (Task.trace fuel) task.plan machine).governed ih holds
      (Task.plan_obeys admitted)
    exact ⟨List.forall_mem_cons.2 ⟨⟨holds, admitted⟩, rest.fits⟩, .pass (.refl _) rest.travels,
      rest.holds, rest.good⟩

/-- A program that is run within the discipline keeps to it. -/
theorem interpret_governed (fuel : Nat) (statements : List Stmt)
    (code : ∀ statement ∈ statements, D.code statement) {machine : Machine}
    (holds : D.Holds machine) :
    D.Governs machine (programTrace fuel statements machine) (fun _ _ => True)
      (interpret fuel statements machine) := by
  rw [interpret_eq_follow]
  exact (Plan.course (Task.run fuel) (Task.trace fuel) (programPlan statements) machine).governed
    (Task.governed fuel)
    holds (programPlan_obeys code)

/-! ## Sessions -/

namespace Session

theorem grows_of_mem_trace {steps : List (Nat × Step)} {session : Session}
    (among : (trace steps session).Pairwise fun machine later =>
      D.Grows machine.scopes later.scopes)
    {machine : Machine} (mem : machine ∈ trace steps session) :
    D.Grows session.machine.scopes machine.scopes := by
  have first : ∃ rest, trace steps session = session.machine :: rest := by
    cases steps with
    | nil => exact ⟨[], rfl⟩
    | cons step rest => exact ⟨_, rfl⟩
  rcases first with ⟨rest, split⟩
  rw [split] at mem among
  rcases List.mem_cons.1 mem with rfl | mem
  · exact .refl _
  · exact (List.pairwise_cons.1 among).1 machine mem

/-- After its first step a session goes on from there, unless the step was suspended. -/
theorem exists_trace_cons (fuel : Nat) (step : Step) (rest : List (Nat × Step))
    (session : Session) :
    ∃ further, (further = rest ∨ further = []) ∧
      trace ((fuel, step) :: rest) session =
        session.machine ::
        ((programTrace fuel (step.statements session) session.machine).map Event.machine ++
          trace further (step.perform fuel session).value) := by
  rcases exists_events_cons fuel step rest session with ⟨further, which, same⟩
  refine ⟨further, which, ?_⟩
  rw [trace_eq_map_events, same, trace_eq_map_events, List.map_cons, List.map_append]
  rfl

/-- A session that starts within a discipline stays within it, if the discipline allows all
statements. -/
theorem trace_governed (code : ∀ statement, D.code statement) (steps : List (Nat × Step))
    (session : Session) (holds : D.Holds session.machine) :
    (∀ machine ∈ trace steps session, D.Holds machine) ∧
      (trace steps session).Pairwise fun machine later => D.Grows machine.scopes later.scopes := by
  have stay : ∀ {session : Session}, D.Holds session.machine →
      (∀ machine ∈ trace [] session, D.Holds machine) ∧
      (trace [] session).Pairwise fun machine later => D.Grows machine.scopes later.scopes :=
    fun holds => ⟨List.forall_mem_singleton.2 holds, List.pairwise_singleton _ _⟩
  induction steps generalizing session with
  | nil => exact stay holds
  | cons first rest ih =>
    rcases first with ⟨fuel, step⟩
    have governed :=
      interpret_governed fuel (step.statements session) (fun statement _ => code statement) holds
    have holdsAfter := governed.holds
    rw [← Step.machine_perform] at holdsAfter
    rcases exists_trace_cons fuel step rest session with ⟨further, which, same⟩
    have later : (∀ machine ∈ trace further (step.perform fuel session).value, D.Holds machine) ∧
        (trace further (step.perform fuel session).value).Pairwise
          fun machine later => D.Grows machine.scopes later.scopes := by
      rcases which with rfl | rfl
      · exact ih _ holdsAfter
      · exact stay holdsAfter
    rw [same]
    constructor
    · intro machine mem
      rcases List.mem_cons.1 mem with rfl | mem
      · exact holds
      · rcases List.mem_append.1 mem with inside | mem
        · rcases List.mem_map.1 inside with ⟨event, happened, rfl⟩
          exact (governed.fits event happened).machine_holds
        · exact later.1 machine mem
    · apply governed.travels.pairwise .trans ?_ later.2
      intro machine mem
      rw [← Step.machine_perform]
      exact grows_of_mem_trace later.2 mem

end Session

end Lox
