import Lox.Proofs.Machine.ControlState
import Lox.Proofs.Machine.Flow
import Lox.Proofs.Machine.Rules

/-!
# Where functions come from

Every execution of a function declaration makes a function, and nothing else does.  All other
function values are copies of such a function: they were looked up, assigned, captured, passed or
returned.  The functions that were made so far, in the order in which they were made, are the
*register*, and the identity of a function is its place there.

* `Chronicle`: at every moment the machine has made as many functions as are in the register, and
  all function values in scopes, calls and arguments are in it.
* `Task.documented`, `interpret_documented`: every run keeps a chronicle, by induction on the fuel.
* `Session.chronicle`: so does every session.
* `Chronicle.identity_eq`: the identity of a function is its place in the register.
-/

namespace Lox

open Eval Plan

/-! ## The register -/

/-- The function that is made where the execution of a declaration starts. -/
def Event.made? : Event → Option Closure
  | .starts ⟨_ + 1, .execute (.function name params body), machine⟩ =>
    some (machine.closure name params body)
  | _ => none

/-- The functions that are made, in the order of the executions that make them. -/
def made (events : List Event) : List Closure := events.filterMap Event.made?

theorem made_append (events more : List Event) : made (events ++ more) = made events ++ made more :=
  List.filterMap_append

theorem made_cons (event : Event) (events : List Event) :
    made (event :: events) = event.made?.toList ++ made events := by
  rw [made, List.filterMap_cons]
  cases event.made? <;> rfl

/-- What starts is no execution of a declaration. -/
theorem made?_of_ne {fuel : Nat} {task : Task} (machine : Machine)
    (other : ∀ name params body, task ≠ .execute (.function name params body)) :
    (Event.starts ⟨fuel, task, machine⟩).made? = none := by
  unfold Event.made?
  split
  next same =>
    cases same
    exact absurd rfl (other _ _ _)
  next => rfl

/-- A value is no declared function, or the one that the register has at its identity. -/
def Registered (register : List Closure) (value : Value) : Prop :=
  ∀ closure, value = .callable (.function closure) → register[closure.identity]? = some closure

theorem Registered.mono {register later : List Closure} (le : register <+: later) {value : Value}
    (registered : Registered register value) : Registered later value := by
  rcases le with ⟨more, rfl⟩
  intro closure same
  have found := registered closure same
  rw [List.getElem?_append_left (List.getElem?_eq_some_iff.1 found).1]
  exact found

theorem registered_plain {register : List Closure} {value : Value}
    (plain : ∀ closure, value ≠ .callable (.function closure)) : Registered register value :=
  fun closure same => absurd same (plain closure)

/-- The values of a run are in the register.  A declaration is no act among others here, since it
adds to it. -/
def registers : Flow where
  World := List Closure
  le register later := register <+: later
  le_refl := List.prefix_refl
  le_trans := List.IsPrefix.trans
  knows := Registered
  knows_mono le registered := registered.mono le
  knows_plain plain := registered_plain plain
  code _ := True
  code_parts _ _ := trivial
  code_declaration _ := trivial
  declares := False

/-! ## What acts and the starting of tasks keep -/

/-- The machine has made the functions of the register, and the values in its scopes are
registered. -/
structure Machine.Accords (register : List Closure) (machine : Machine) : Prop where
  count : machine.declared = register.length
  bound : ∀ (id : ScopeId) (scope : Scope) (name : String) (value : Value),
    machine.scopes.cells[id]? = some scope →
    scope.bindings.get? name = some value → Registered register value

namespace Machine.Accords

variable {register : List Closure} {machine : Machine}

theorem initial (source : Source) (sink : Sink) (clock : Clock) :
    (Machine.initial source sink clock).Accords [] where
  count := rfl
  bound id scope name value found bound := by
    rcases (Scopes.of_getElem?_initial found).2.2 name value bound with ⟨primitive, rfl⟩
    exact registered_plain fun _ => by simp

theorem congr {other : Machine} (accords : machine.Accords register)
    (declared : other.declared = machine.declared) (scopes : other.scopes = machine.scopes) :
    other.Accords register where
  count := declared.trans accords.count
  bound := by
    rw [scopes]
    exact accords.bound

theorem define (accords : machine.Accords register) (id : ScopeId) (name : String) {value : Value}
    (registered : Registered register value) :
    { machine with scopes := machine.scopes.define id name value }.Accords register where
  count := accords.count
  bound other scope bound found foundScope binds := by
    rcases Scopes.of_getElem?_define foundScope with old | ⟨-, old, foundOld, rfl⟩
    · exact accords.bound other scope bound found old binds
    · rcases Bindings.of_get?_insert binds with rfl | earlier
      · exact registered
      · exact accords.bound other old bound found foundOld earlier

theorem inScope (accords : machine.Accords register) (enclosing : ScopeId) {bindings : Bindings}
    (registered : ∀ name value, bindings.get? name = some value → Registered register value) :
    (machine.inScope enclosing bindings).Accords register where
  count := accords.count
  bound id scope name value found binds := by
    rcases Scopes.of_getElem?_push found with old | ⟨rfl, rfl⟩
    · exact accords.bound id scope name value old binds
    · exact registered name value binds

/-- A new function is registered at the end. -/
theorem declare (accords : machine.Accords register) (name : Lexeme) (params : List Lexeme)
    (body : List Stmt) :
    { machine with declared := machine.declared + 1 }.Accords
      (register ++ [machine.closure name params body]) ∧
      Registered (register ++ [machine.closure name params body])
        (.callable (.function (machine.closure name params body))) := by
  constructor
  · constructor
    · rw [List.length_append, List.length_singleton, ← accords.count]
    · intro id scope bound value found binds
      exact (accords.bound id scope bound value found binds).mono (List.prefix_append _ _)
  · intro closure same
    cases same
    have place : (machine.closure name params body).identity = register.length := accords.count
    rw [place, List.getElem?_concat_length]

end Machine.Accords

theorem Fixed.declared_eq {α : Type} {run : Eval α} (fixed : Fixed run) (machine : Machine) :
    (machineAfter (run machine)).declared = machine.declared := by
  rw [fixed.machine_eq]

/-- Native functions make no functions. -/
theorem declared_native (machine : Machine) (primitive : Native) (line : Nat)
    (arguments : List Value) :
    (machineAfter (primitive.invoke line arguments machine)).declared = machine.declared := by
  cases primitive with
  | clock =>
    change (machineAfter (Native.readClock line machine)).declared = machine.declared
    unfold Native.readClock
    rcases machine.clock.read with ⟨time, clock⟩
    cases time <;> rfl
  | input =>
    change (machineAfter (Native.readLine line machine)).declared = machine.declared
    unfold Native.readLine
    rcases machine.source.read with ⟨reading, source⟩
    cases reading <;> rfl
  | number => exact (Fixed.number line _).declared_eq machine

/-- A value that is no declared function, where nothing else has happened. -/
theorem Machine.Accords.of_quiet {register : List Closure} {machine : Machine}
    (accords : machine.Accords register) {result : EStateM.Result Halt Machine Value}
    (quiet : Quiet machine result) (declared : (machineAfter result).declared = machine.declared) :
    (machineAfter result).Accords register ∧ ∀ value after, result = .ok value after →
      Registered register value := by
  refine ⟨accords.congr declared quiet.scopes_eq, ?_⟩
  intro value after same
  subst same
  cases quiet with
  | ok plain _ _ => exact registered_plain plain

/-- An act other than a declaration keeps to the register. -/
theorem Act.accords {α : Type} (action : Act α) {register : List Closure} {machine : Machine}
    (accords : machine.Accords register) (permitted : registers.Permits register action) :
    (machineAfter (action.perform machine)).Accords register ∧
      ∀ value after, action.perform machine = .ok value after →
        registers.Yields register action value := by
  cases action with
  | lookup name =>
    simp only [Act.perform, Eval.lookup]
    cases found : machine.scopes.get? machine.current name.text with
    | none => exact ⟨accords, fun _ _ same => by cases same⟩
    | some value =>
      refine ⟨accords, ?_⟩
      intro other after same
      cases same
      rcases Scopes.of_get? (P := fun _ => True) (fun _ _ _ _ _ _ => trivial) trivial found with
        ⟨target, scope, -, foundScope, bound⟩
      exact accords.bound target scope name.text value foundScope bound
  | assign name value =>
    simp only [Act.perform, Eval.assign, Scopes.assign?]
    cases machine.scopes.resolve? machine.current name.text with
    | none => exact ⟨accords, fun _ _ same => by cases same⟩
    | some target => exact ⟨accords.define target name.text permitted, fun _ _ _ => trivial⟩
  | define name value =>
    exact ⟨accords.define machine.current name.text permitted, fun _ _ _ => trivial⟩
  | declare name params body => exact absurd permitted.1 id
  | unary op line operand =>
    exact accords.of_quiet (.unary machine op line operand)
      ((Fixed.unary op line operand).declared_eq machine)
  | binary op line left right =>
    exact accords.of_quiet (.binary machine op line left right)
      ((Fixed.binary op line left right).declared_eq machine)
  | callee line value =>
    simp only [Act.perform, asCallable]
    split
    · refine ⟨accords, ?_⟩
      intro other after same
      cases same
      exact permitted
    · exact ⟨accords, fun _ _ same => by cases same⟩
  | arity line callable arguments =>
    simp only [Act.perform, checkArity]
    split
    · exact ⟨accords, fun _ _ _ => trivial⟩
    · exact ⟨accords, fun _ _ _ => trivial⟩
  | native primitive line arguments =>
    exact accords.of_quiet (.native machine primitive line arguments) (declared_native ..)
  | print text =>
    simp only [Act.perform, Eval.print]
    split
    · exact ⟨accords.congr rfl rfl, fun _ _ _ => trivial⟩
    · exact ⟨accords.congr rfl rfl, fun _ _ _ => trivial⟩
  | fail line fault => exact ⟨accords, fun _ _ _ => trivial⟩

namespace Entry

variable {register : List Closure} {machine inner : Machine} {entry : Entry}

theorem enter_accords (accords : machine.Accords register)
    (granted : registers.Grants register entry) (entered : entry.enter machine = .ok inner) :
    inner.Accords register := by
  cases entry with
  | plain =>
    cases entered
    exact accords
  | block =>
    cases entered
    apply accords.inScope
    intro name value bound
    cases bound
  | frame enclosing bindings =>
    cases entered
    exact accords.inScope enclosing granted.2
  | call line =>
    rw [enter] at entered
    split at entered
    · cases entered
    · cases entered
      exact accords.congr rfl rfl

theorem leave_accords {after : Machine} (entry : Entry) (accords : after.Accords register) :
    (entry.leave machine after).Accords register := by
  cases entry <;> exact accords.congr rfl rfl

end Entry

/-! ## Chronicles -/

/-- What happens is in accord with the register. -/
def Event.Accords (register : List Closure) : Event → Prop
  | .starts run => run.machine.Accords register ∧ registers.Admits register run.task
  | .passes machine => machine.Accords register

theorem Event.Accords.machine {register : List Closure} {event : Event}
    (accords : event.Accords register) : event.machine.Accords register := by
  cases event with
  | starts run => exact accords.1
  | passes machine => exact accords

/-- All that happens is in accord with the register, to which the functions are added that are
made. -/
def Chronicle : List Closure → List Event → Prop
  | _, [] => True
  | register, event :: rest =>
    event.Accords register ∧ Chronicle (register ++ event.made?.toList) rest

theorem chronicle_append {register : List Closure} {events more : List Event} :
    Chronicle register (events ++ more) ↔ Chronicle register events ∧
    Chronicle (register ++ made events) more := by
  induction events generalizing register with
  | nil => simp [Chronicle, made]
  | cons event events ih =>
    rw [List.cons_append, Chronicle, Chronicle, ih, made_cons, List.append_assoc, and_assoc]

theorem chronicle_passes {register : List Closure} {machine : Machine} {events : List Event} :
    Chronicle register (.passes machine :: events) ↔ machine.Accords register ∧
    Chronicle register events := by
  have same : register ++ (Event.passes machine).made?.toList = register := List.append_nil register
  rw [Chronicle, same, Event.Accords]

/-- The register at a moment of a chronicle. -/
theorem Chronicle.accords {register : List Closure} {early late : List Event} {event : Event}
    (chronicle : Chronicle register (early ++ event :: late)) :
    event.Accords (register ++ made early) :=
  (chronicle_append.1 chronicle).2.1

/-- A run keeps a chronicle, and its end is in accord with the register that it leaves. -/
structure Documented {α : Type} (register : List Closure) (events : List Event)
    (Good : List Closure → α → Prop) (result : EStateM.Result Halt Machine α) : Prop where
  chronicle : Chronicle register events
  accords : (machineAfter result).Accords (register ++ made events)
  good : ∀ value after, result = .ok value after → Good (register ++ made events) value

namespace Documented

variable {α β : Type} {register : List Closure} {Good : List Closure → α → Prop}
    {Fine : List Closure → β → Prop}
  {events more : List Event} {middle : Machine} {result : EStateM.Result Halt Machine α}

/-- One run goes on from the end of another one. -/
theorem append {value : β} (first : Documented register events Fine (.ok value middle))
    (second : Documented (register ++ made events) more Good result) :
    Documented register (events ++ more) Good result := by
  rcases second with ⟨chronicle, accords, good⟩
  rw [List.append_assoc, ← made_append] at accords good
  exact ⟨chronicle_append.2 ⟨first.chronicle, chronicle⟩, accords, good⟩

/-- No function is made. -/
theorem of_unmade (chronicle : Chronicle register events) (unmade : made events = [])
    (accords : (machineAfter result).Accords register)
    (good : ∀ value after, result = .ok value after → Good register value) :
    Documented register events Good result := by
  have same : register ++ made events = register := by rw [unmade, List.append_nil]
  refine ⟨chronicle, ?_, ?_⟩
  · rw [same]
    exact accords
  · rw [same]
    exact good

theorem of_accords (accords : (machineAfter result).Accords register)
    (good : ∀ value after, result = .ok value after → Good register value) :
    Documented register [.passes (machineAfter result)] Good result :=
  of_unmade ⟨accords, trivial⟩ rfl accords good

theorem cons {event : Event} (accords : event.Accords register)
    (rest : Documented (register ++ event.made?.toList) events Good result) :
    Documented register (event :: events) Good result := by
  rcases rest with ⟨chronicle, accordsAfter, good⟩
  rw [List.append_assoc, ← made_cons] at accordsAfter good
  exact ⟨⟨accords, chronicle⟩, accordsAfter, good⟩

end Documented

section Start

variable {run : (task : Task) → Eval task.Result} {traceOf : Task → Machine → List Event}
    {register : List Closure}

/-- A task that is started on the machine that it is entered with, seen from the machine before. -/
theorem Entry.documented {entry : Entry} {task : Task} {machine inner : Machine}
    (entered : entry.enter machine = .ok inner)
    (inside : Documented register (traceOf task inner)
      (fun register result => registers.Gives register task result) (run task inner)) :
    Documented register
      (traceOf task inner ++ [.passes (machineAfter (entry.around (run task) machine))])
      (fun register result => registers.Gives register task result)
      (entry.around (run task) machine) := by
  rcases inside with ⟨chronicle, accords, good⟩
  have left : Documented (register ++ made (traceOf task inner))
      [.passes (machineAfter (entry.around (run task) machine))]
      (fun register result => registers.Gives register task result)
        (entry.around (run task) machine) := by
    apply Documented.of_accords
    · cases ran : run task inner with
      | ok value after =>
        rw [ran] at accords
        rw [around_of_ok entered ran]
        exact entry.leave_accords accords
      | error halt after =>
        rw [ran] at accords
        rw [around_of_error entered ran]
        exact entry.leave_accords accords
    · intro value after same
      cases ran : run task inner with
      | ok other last =>
        rw [around_of_ok entered ran] at same
        cases same
        exact good value last ran
      | error halt last =>
        rw [around_of_error entered ran] at same
        cases same
  refine ⟨chronicle_append.2 ⟨chronicle, left.chronicle⟩, ?_, ?_⟩
  · rw [made_append, ← List.append_assoc]
    exact left.accords
  · rw [made_append, ← List.append_assoc]
    exact left.good

theorem Plan.Course.documented {α : Type} {Good : List Closure → α → Prop} {plan : Plan α}
    {machine : Machine} {events : List Event} {result : EStateM.Result Halt Machine α}
    (tasks : ∀ register task inner, inner.Accords register → registers.Admits register task →
      Documented register (traceOf task inner)
        (fun register result => registers.Gives register task result) (run task inner))
    (course : Course run traceOf plan machine events result) (accords : machine.Accords register)
    (flows : plan.Flows registers Good register) : Documented register events Good result := by
  induction course generalizing register with
  | @done value machine =>
    refine .of_unmade trivial rfl accords ?_
    intro _ _ same
    cases same
    exact flows
  | @acted β action next machine value after events result performed course ih =>
    rcases action.accords accords flows.1 with ⟨accordsAfter, yields⟩
    rw [performed] at accordsAfter yields
    have first : Documented register [.passes after]
        (fun register value => registers.Yields register action value)
        (.ok value after) := .of_accords accordsAfter yields
    exact first.append
      (ih first.accords (flows.2 _ value (List.prefix_append _ _) (first.good value after rfl)))
  | @stopped β action next machine halt after performed =>
    have accordsAfter := (action.accords accords flows.1).1
    rw [performed] at accordsAfter
    exact .of_unmade ⟨accordsAfter, trivial⟩ rfl accordsAfter fun _ _ same => by cases same
  | refused entered => exact .of_unmade trivial rfl accords fun _ _ same => by cases same
  | @returned entry task next machine inner value after events result entered ran course ih =>
    have inside := tasks register task inner (Entry.enter_accords accords flows.1 entered) flows.2.1
    have first := Entry.documented entered inside
    rw [Entry.around_of_ok entered ran] at first
    rw [List.append_cons]
    exact first.append
      (ih first.accords (flows.2.2 _ value (List.prefix_append _ _) (first.good value _ rfl)))
  | @halted entry task next machine inner halt after entered ran =>
    have inside := tasks register task inner (Entry.enter_accords accords flows.1 entered) flows.2.1
    have only := Entry.documented entered inside
    rw [Entry.around_of_error entered ran] at only
    exact ⟨only.chronicle, only.accords, fun _ _ same => by cases same⟩

end Start

/-- The execution of a declaration adds the function that it makes to the register. -/
theorem Task.documented_function {register : List Closure} {machine : Machine}
    (accords : machine.Accords register) (fuel : Nat) (name : Lexeme) (params : List Lexeme)
    (body : List Stmt) :
    Documented register (Task.trace (fuel + 1) (.execute (.function name params body)) machine)
      (fun register result =>
        registers.Gives register (.execute (.function name params body)) result)
      (Task.run (fuel + 1) (.execute (.function name params body)) machine) := by
  have started :
      Event.Accords register (.starts ⟨fuel + 1, .execute (.function name params body), machine⟩) :=
    ⟨accords, trivial⟩
  rcases accords.declare name params body with ⟨accordsMade, registered⟩
  have accordsBound := accordsMade.define machine.current name.text registered
  apply Documented.cons started
  refine .of_unmade ?_ rfl accordsBound ?_
  · exact chronicle_passes.2 ⟨accordsMade, chronicle_passes.2 ⟨accordsBound, trivial⟩⟩
  · intro _ _ same
    cases same
    exact Flow.knows_nil

theorem Task.documented (fuel : Nat) (register : List Closure) (task : Task) (machine : Machine)
    (accords : machine.Accords register) (admitted : registers.Admits register task) :
    Documented register (task.trace fuel machine)
      (fun register result => registers.Gives register task result)
      (task.run fuel machine) := by
  induction fuel generalizing register task machine with
  | zero =>
    rw [Task.run_zero]
    exact .of_unmade ⟨⟨accords, admitted⟩, trivial⟩ rfl accords fun _ _ same => by cases same
  | succ fuel ih =>
    -- A declaration adds to the register between its two acts, which no flow does, so its course is
    -- followed by hand.
    by_cases declaration : ∃ name params body, task = .execute (.function name params body)
    · rcases declaration with ⟨name, params, body, rfl⟩
      exact documented_function accords fuel name params body
    · have other : ∀ name params body, task ≠ .execute (.function name params body) :=
        fun name params body same => declaration ⟨name, params, body, same⟩
      have flows := Task.plan_flows admitted fun name params body same =>
        absurd same (other name params body)
      have rest :=
        (Plan.course (Task.run fuel) (Task.trace fuel) task.plan machine).documented
          ih accords flows
      have started : Event.Accords register (.starts ⟨fuel + 1, task, machine⟩) :=
        ⟨accords, admitted⟩
      rw [Task.run_succ]
      apply Documented.cons started
      rw [made?_of_ne machine other, Option.toList_none, List.append_nil]
      exact rest

theorem interpret_documented (fuel : Nat) (statements : List Stmt) {register : List Closure}
    {machine : Machine} (accords : machine.Accords register) :
    Documented register (programTrace fuel statements machine) (fun _ _ => True)
      (interpret fuel statements machine) := by
  rw [interpret_eq_follow]
  have flows : (programPlan statements).Flows registers (fun _ _ => True) register :=
    programPlan_flows fun _ _ => trivial
  exact (Plan.course (Task.run fuel) (Task.trace fuel) (programPlan statements) machine).documented
    (Task.documented fuel) accords flows

/-- All that happens in a session is in accord with the functions that were made before. -/
theorem Session.chronicle (steps : List (Nat × Step)) (session : Session) {register : List Closure}
    (accords : session.machine.Accords register) : Chronicle register (events steps session) := by
  induction steps generalizing session register with
  | nil => exact ⟨accords, trivial⟩
  | cons first rest ih =>
    rcases first with ⟨fuel, step⟩
    have documented := interpret_documented fuel (step.statements session) accords
    have accordsAfter := documented.accords
    rw [← Step.machine_perform] at accordsAfter
    rcases exists_events_cons fuel step rest session with ⟨further, which, same⟩
    rw [same]
    refine chronicle_passes.2 ⟨accords, chronicle_append.2 ⟨documented.chronicle, ?_⟩⟩
    rcases which with rfl | rfl
    · exact ih _ accordsAfter
    · exact ⟨accordsAfter, trivial⟩

/-! ## Identities -/

/-- Only an execution of a declaration makes a function. -/
theorem Event.of_made? {event : Event} {closure : Closure} (makes : event.made? = some closure) :
    ∃ fuel name params body machine,
      event = .starts ⟨fuel + 1, .execute (.function name params body), machine⟩ ∧
      closure = machine.closure name params body := by
  unfold made? at makes
  split at makes
  next fuel name params body machine =>
    cases makes
    exact ⟨fuel, name, params, body, machine, rfl, rfl⟩
  next => cases makes

/-- A new function is told apart by how many there were before. -/
theorem Event.Accords.identity_eq {register : List Closure} {event : Event}
    (accords : event.Accords register) {closure : Closure} (makes : event.made? = some closure) :
    closure.identity = register.length := by
  rcases Event.of_made? makes with ⟨fuel, name, params, body, machine, rfl, rfl⟩
  exact accords.machine.count

/-- The identity of a function is its place in the register. -/
theorem Chronicle.identity_eq {register : List Closure} {events : List Event}
    (chronicle : Chronicle register events) {place : Nat} {closure : Closure}
    (found : (made events)[place]? = some closure) :
    closure.identity = register.length + place := by
  -- Along the events the register grows and the place in the rest goes down, so their sum stays.
  induction events generalizing register place with
  | nil => cases found
  | cons event events ih =>
    rcases chronicle with ⟨accords, rest⟩
    rw [made_cons] at found
    cases makes : event.made? with
    | none =>
      rw [makes, Option.toList_none, List.append_nil] at rest
      rw [makes] at found
      exact ih rest found
    | some new =>
      rw [makes] at rest found
      cases place with
      | zero =>
        cases found
        exact accords.identity_eq makes
      | succ place =>
        have further := ih rest found
        rw [List.length_append, Option.toList_some, List.length_singleton] at further
        omega

end Lox
