import Lox.Proofs.Machine.HandedOn
import Lox.Proofs.Machine.Provenance

/-!
# When two functions are equal

Two function values are equal if they have the same identity.  In a session this is so exactly if
they are copies of what one and the same execution of a declaration made.

* `Found`: where values are found in what happens.
* `Found.registered`: a function value that is found has been made by then.
* `function_equality_is_declaring_execution`: equality, copies and new functions.
-/

namespace Lox

/-! ## The values of a session -/

/-- A value is bound somewhere on the machine. -/
def Machine.Has (machine : Machine) (value : Value) : Prop :=
  ∃ (id : ScopeId) (scope : Scope) (name : String), machine.scopes.cells[id]? = some scope ∧
    scope.bindings.get? name = some value

theorem Machine.has_of_get? {machine : Machine} {id : ScopeId} {name : String} {value : Value}
    (meaning : machine.scopes.get? id name = some value) : machine.Has value := by
  rcases Scopes.finds_of_get? meaning with ⟨target, scope, -, found, bound⟩
  exact ⟨target, scope, name, found, bound⟩

/-- The values in what a task gives. -/
def Task.values : (task : Task) → task.Result → List Value
  | .evaluate _, value | .evaluateOption _, value | .invoke _ _ _, value => [value]
  | .evaluateAll _, values => values
  | .execute _, signal | .executeAll _, signal | .loop _ _, signal => [signal.result]

/-- A value is found in what happens: bound on a machine, passed to a call, or given by a run that
has ended. -/
inductive Found (events : List Event) : Value → Prop
  | bound {event value} : event ∈ events → event.machine.Has value → Found events value
  | passed {fuel callable line arguments machine value} :
      .starts ⟨fuel, .invoke callable line arguments, machine⟩ ∈ events →
      value ∈ .callable callable :: arguments → Found events value
  | given {fuel} {task : Task} {machine result after value} :
      task.trace fuel machine <:+: events → task.run fuel machine = .ok result after →
      value ∈ task.values result → Found events value

theorem Machine.Accords.registered_of_has {register : List Closure} {machine : Machine}
    (accords : machine.Accords register) {value : Value} (has : machine.Has value) :
    Registered register value := by
  rcases has with ⟨id, scope, name, found, bound⟩
  exact accords.bound id scope name value found bound

theorem Task.registered_of_gives {register : List Closure} {task : Task} {result : task.Result}
    (gives : registers.Gives register task result) {value : Value}
    (mem : value ∈ task.values result) : Registered register value := by
  cases task with
  | evaluateAll expressions => exact gives value mem
  | _ =>
    rw [List.mem_singleton.1 mem]
    exact gives

theorem Task.exists_trace_cons (fuel : Nat) (task : Task) (machine : Machine) :
    ∃ rest, task.trace fuel machine = .starts ⟨fuel, task, machine⟩ :: rest := by
  cases fuel with
  | zero => exact ⟨[], rfl⟩
  | succ fuel => exact ⟨_, rfl⟩

/-- What is found has been made by then. -/
theorem Found.registered {events : List Event} (chronicle : Chronicle [] events) {value : Value}
    (found : Found events value) : Registered (made events) value := by
  cases found with
  | bound mem has =>
    rcases List.append_of_mem mem with ⟨early, late, rfl⟩
    rw [made_append]
    exact (chronicle.accords.machine.registered_of_has has).mono (List.prefix_append _ _)
  | @passed fuel callable line arguments machine value mem among =>
    rcases List.append_of_mem mem with ⟨early, late, rfl⟩
    rcases chronicle.accords with ⟨-, known, knownAll⟩
    rw [made_append]
    apply Registered.mono (List.prefix_append _ _)
    rcases List.mem_cons.1 among with rfl | argument
    · exact known
    · exact knownAll value argument
  | @given fuel task machine result after value inside ran mem =>
    rcases inside with ⟨early, late, rfl⟩
    rw [List.append_assoc] at chronicle
    -- The run is followed again from its first event, where its task is in accord with what was
    -- made before.
    rcases Task.exists_trace_cons fuel task machine with ⟨rest, begins⟩
    have started : Event.Accords (made early) (.starts ⟨fuel, task, machine⟩) := by
      rw [begins] at chronicle
      exact chronicle.accords
    have documented := Task.documented fuel (made early) task machine started.1 started.2
    rw [made_append, made_append]
    exact (Task.registered_of_gives (documented.good result after ran) mem).mono
      (List.prefix_append _ _)

/-! ## Equality -/

/-- The function as a value. -/
abbrev Closure.value (closure : Closure) : Value := .callable (.function closure)

theorem Closure.equals_value_iff (first second : Closure) :
    first.value.equals second.value = true ↔ first.identity = second.identity := beq_iff_eq

section Session

variable {events : List Event} (chronicle : Chronicle [] events)

include chronicle

/-- The executions are told apart by what they make. -/
theorem Chronicle.equals_iff_place {place other : Nat} {first second : Closure}
    (one : (made events)[place]? = some first) (two : (made events)[other]? = some second) :
    first.value.equals second.value = true ↔ place = other := by
  have identity := chronicle.identity_eq one
  have identityOther := chronicle.identity_eq two
  rw [Closure.equals_value_iff]
  omega

/-- Functions that are found and equal are the same in every respect. -/
theorem Chronicle.eq_of_equals {first second : Closure} (foundFirst : Found events first.value)
    (foundSecond : Found events second.value) (equals : first.value.equals second.value = true) :
    first = second := by
  have registered := foundFirst.registered chronicle first rfl
  have registeredSecond := foundSecond.registered chronicle second rfl
  rw [← (Closure.equals_value_iff first second).1 equals, registered] at registeredSecond
  exact Option.some.inj registeredSecond

/-- Functions that are found are equal exactly if one execution made them. -/
theorem Chronicle.equals_iff_exists_place {first second : Closure}
    (foundFirst : Found events first.value) (foundSecond : Found events second.value) :
    first.value.equals second.value = true ↔
      ∃ place : Nat, (made events)[place]? = some first ∧ (made events)[place]? = some second := by
  constructor
  · intro equals
    have registered := foundFirst.registered chronicle first rfl
    cases chronicle.eq_of_equals foundFirst foundSecond equals
    exact ⟨first.identity, registered, registered⟩
  · intro copies
    rcases copies with ⟨place, one, two⟩
    exact (chronicle.equals_iff_place one two).2 rfl

/-- A new function is unequal to those that are there. -/
theorem Chronicle.equals_new {before after : List Event} {event : Event}
    (split : events = before ++ event :: after) {closure other : Closure}
    (makes : event.made? = some closure)
    (there : Found before other.value ∨ event.machine.Has other.value) :
    closure.value.equals other.value = false := by
  rw [split] at chronicle
  have accords : event.Accords (made before) := chronicle.accords
  have registered : Registered (made before) other.value := by
    rcases there with found | has
    · exact found.registered (chronicle_append.1 chronicle).1
    · exact accords.machine.registered_of_has has
  have within := (List.getElem?_eq_some_iff.1 (registered other rfl)).1
  have fresh := accords.identity_eq makes
  rw [← Bool.not_eq_true, Closure.equals_value_iff]
  omega

end Session

/-- Function equality is identity of the declaring execution.

Whatever is done in a session, an execution of a declaration binds its name to what it makes, in the
current scope.  A function value that is found by some moment, bound in a scope, passed to a call or
given by a run, is a copy of what such an execution has made by then.  Two function values are equal
exactly if they are copies of what one and the same execution made, so they agree in name,
parameters, body and scope.  A function value stays equal to itself when it is handed on by
assignments, captures, arguments and returns, in any number.  What an execution makes is unequal to
every function value that was there before. -/
theorem function_equality_is_declaring_execution (steps : List (Nat × Session.Step))
    (source : Source) (sink : Sink) (clock : Clock) :
    let events := Session.events steps (.initial source sink clock)
    (∀ event ∈ events, ∀ closure, event.made? = some closure → ∃ fuel machine after,
      event = .starts ⟨fuel + 1, .execute closure.declaration, machine⟩ ∧
      execute (fuel + 1) closure.declaration machine = .ok .completed after ∧
      after.scopes = machine.scopes.define machine.current closure.name.text closure.value ∧
      closure.scope = machine.current) ∧
    (∀ before, before <+: events → ∀ closure : Closure, Found before closure.value →
      ∃ place : Nat, (made before)[place]? = some closure) ∧
    (∀ (place other : Nat) (first second : Closure), (made events)[place]? = some first →
      (made events)[other]? = some second →
      (first.value.equals second.value = true ↔ place = other)) ∧
    (∀ first second : Closure, Found events first.value → Found events second.value →
      (first.value.equals second.value = true ↔
        ∃ place : Nat, (made events)[place]? = some first ∧ (made events)[place]? = some second) ∧
      (first.value.equals second.value = true →
        first.name = second.name ∧ first.params = second.params ∧ first.body = second.body ∧
          first.scope = second.scope)) ∧
    (∀ (closure : Closure) (handed : Value), Relation.ReflTransGen HandedOn closure.value handed →
      closure.value.equals handed = true) ∧
    (∀ before event after closure, events = before ++ event :: after → event.made? = some closure →
      ∀ other : Closure, Found before other.value ∨ event.machine.Has other.value →
        closure.value.equals other.value = false) := by
  intro events
  have chronicle : Chronicle [] events := Session.chronicle steps _ (.initial source sink clock)
  refine ⟨?_, ?_, ?_, ?_, ?_, ?_⟩
  · intro event _ closure makes
    rcases Event.of_made? makes with ⟨fuel, name, params, body, machine, rfl, rfl⟩
    exact ⟨fuel, machine, _, rfl, rfl, rfl, rfl⟩
  · intro before early closure found
    rcases early with ⟨after, split⟩
    rw [← split] at chronicle
    exact ⟨closure.identity, found.registered (chronicle_append.1 chronicle).1 closure rfl⟩
  · intro place other first second one two
    exact chronicle.equals_iff_place one two
  · intro first second foundFirst foundSecond
    refine ⟨chronicle.equals_iff_exists_place foundFirst foundSecond, ?_⟩
    intro equals
    cases chronicle.eq_of_equals foundFirst foundSecond equals
    exact ⟨rfl, rfl, rfl, rfl⟩
  · intro closure handed passes
    rw [HandedOn.eq_of_chain passes]
    exact (Closure.equals_value_iff closure closure).2 rfl
  · intro before event after closure split makes other there
    exact chronicle.equals_new split makes there

/-- A session in which a function is declared, a variable gets it, and the same declaration is
executed again: `fun f() {}`, `var a = f;` and `fun f() {}` -/
def declaredAgain : List (Nat × Session.Step) :=
  let declaration : List Token :=
    [⟨⟨"fun", 1⟩, .fun⟩, ⟨⟨"f", 1⟩, .identifier⟩, ⟨⟨"(", 1⟩, .leftParen⟩,
    ⟨⟨")", 1⟩, .rightParen⟩, ⟨⟨"\x7b", 1⟩, .leftBrace⟩, ⟨⟨"\x7d", 1⟩, .rightBrace⟩]
  let copy : List Token := [⟨⟨"var", 1⟩, .var⟩, ⟨⟨"a", 1⟩, .identifier⟩, ⟨⟨"=", 1⟩, .equal⟩,
    ⟨⟨"f", 1⟩, .identifier⟩, ⟨⟨";", 1⟩, .semicolon⟩]
  [(3, .forceTokens declaration), (3, .forceTokens copy), (3, .forceTokens declaration)]

/-- What an execution of the declaration makes. -/
def declaredBy (execution : Nat) : Closure := ⟨execution, ⟨"f", 1⟩, [], [], Scopes.globalId⟩

theorem made_declaredAgain :
    made (Session.events declaredAgain (.initial {} {} { time := fun _ => 0 })) =
      [declaredBy 0, declaredBy 1] := rfl

theorem getLast?_declaredAgain :
    (Session.events declaredAgain (.initial {} {} { time := fun _ => 0 })).getLast? =
      some
        (.passes
          (Session.afterAll (.initial {} {} { time := fun _ => 0 }) declaredAgain).machine) := rfl

theorem get?_declaredAgain :
    ["a", "f"].map
    ((Session.afterAll (.initial {} {} { time := fun _ => 0 }) declaredAgain).machine.scopes.get?
      0) =
      [some (declaredBy 0).value, some (declaredBy 1).value] := rfl

/-- The variable has the first function, and the name has another one by then, which is unequal to
it. -/
theorem function_equality_is_declaring_execution_declaredAgain :
    let events := Session.events declaredAgain (.initial {} {} { time := fun _ => 0 })
    Found events (declaredBy 0).value ∧ Found events (declaredBy 1).value ∧
      (declaredBy 0).declaration = (declaredBy 1).declaration ∧
      (declaredBy 0).value.equals (declaredBy 0).value = true ∧
      (declaredBy 0).value.equals (declaredBy 1).value = false := by
  intro events
  have last := List.mem_of_getLast? getLast?_declaredAgain
  have names := get?_declaredAgain
  simp only [List.map_cons, List.map_nil, List.cons.injEq, and_true] at names
  have first : Found events (declaredBy 0).value := .bound last (Machine.has_of_get? names.1)
  have second : Found events (declaredBy 1).value := .bound last (Machine.has_of_get? names.2)
  obtain ⟨-, -, executions, equal, -, -⟩ :=
    function_equality_is_declaring_execution declaredAgain {} {} { time := fun _ => 0 }
  rw [made_declaredAgain] at executions equal
  refine ⟨first, second, rfl, (equal _ _ first first).1.2 ⟨0, rfl, rfl⟩, ?_⟩
  rw [← Bool.not_eq_true, executions 0 1 _ _ rfl rfl]
  decide

end Lox
