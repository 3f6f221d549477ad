import Lox.Proofs.Machine.ScopeChains

/-!
# Closures are encapsulated

A run can change only those scopes that can be reached from the scope it is in: through the scopes
around it, and through the functions that are bound in the scopes that can be reached.  A call can
change only what can be reached from the function that is called, from its arguments, and from the
global scope.

The scopes that can be reached in the store before the run, together with all that are made in it,
are a discipline: whatever a run binds or declares leads to no other old scope.
-/

namespace Lox

/-- The scope that a function value was declared in. -/
def Value.declaredIn? : Value → Option ScopeId
  | .callable (.function closure) => some closure.scope
  | _ => none

/-- The least set of scopes that has the given ones, and with each scope the one around it and those
that functions bound in it were declared in. -/
inductive Scopes.Reaches (scopes : Scopes) (roots : ScopeId → Prop) : ScopeId → Prop
  | root {id} : roots id → Reaches scopes roots id
  | enclosing {id scope outer} : Reaches scopes roots id → scopes.cells[id]? = some scope →
      scope.enclosing = some outer → Reaches scopes roots outer
  | declaredIn {id scope name value inner} : Reaches scopes roots id →
    scopes.cells[id]? = some scope →
      scope.bindings.get? name = some value → value.declaredIn? = some inner →
      Reaches scopes roots inner

/-- A run is only in scopes that could be reached at its start, and in new ones. -/
def reachableScopes (scopes : Scopes) (roots : ScopeId → Prop) : Discipline where
  place count id := id < count ∧ (id < scopes.nextId → scopes.Reaches roots id)
  code _ := True
  base := scopes.nextId
  place_mono le place := ⟨Nat.lt_of_lt_of_le place.1 le, place.2⟩
  place_of_lt lt _ place := ⟨lt, place.2⟩
  place_new le := ⟨Nat.lt_succ_self _, fun lt => absurd lt (Nat.not_lt.2 le)⟩
  code_parts _ _ := trivial

section Reachable

variable {scopes : Scopes} {roots : ScopeId → Prop}

theorem reachableScopes_knows {value : Value} :
    (reachableScopes scopes roots).Knows scopes.nextId value ↔
      ∀ id, value.declaredIn? = some id → id < scopes.nextId ∧ scopes.Reaches roots id := by
  cases value with
  | callable callable =>
    cases callable with
    | function closure =>
      constructor
      · intro known id same
        cases same
        exact ⟨known.2.1, known.2.2 known.2.1⟩
      · intro reached
        rcases reached closure.scope rfl with ⟨existing, reaches⟩
        exact ⟨trivial, existing, fun _ => reaches⟩
    | native primitive => exact ⟨fun _ _ same => (nomatch same), fun _ => trivial⟩
  | _ => exact ⟨fun _ _ same => (nomatch same), fun _ => trivial⟩

theorem reachableScopes_sound (existing : existingScopes.Sound scopes) :
    (reachableScopes scopes roots).Sound scopes where
  base_le := Nat.le_refl _
  enclosing id scope outer place found link := by
    have reaches := place.2 place.1
    exact ⟨existing.enclosing id scope outer place.1 found link,
      fun _ => .enclosing reaches found link⟩
  bound id scope name value place found bound := by
    rw [reachableScopes_knows]
    intro inner declared
    have known := existing.bound id scope name value place.1 found bound
    refine ⟨?_, .declaredIn (place.2 place.1) found bound declared⟩
    unfold Value.declaredIn? at declared
    split at declared
    · cases declared
      exact known.2
    · cases declared

theorem untouched_of_grows {before after : Scopes}
    (grow : (reachableScopes before roots).Grows before after) {id : ScopeId}
    (existing : id < before.nextId) (unreached : ¬ before.Reaches roots id) :
    after.cells[id]? = before.cells[id]? := by
  apply grow.apart id existing
  intro place
  exact unreached (place.2 existing)

end Reachable

/-! ## Runs and calls -/

/-- A task that may be run there changes only what can be reached from the scope that it is started
in. -/
theorem Task.unreached_untouched {machine : Machine} (holds : existingScopes.Holds machine)
    (fuel : Nat) (task : Task)
    (code : (reachableScopes machine.scopes (· = machine.current)).Admits
      machine.scopes.nextId task)
    {id : ScopeId} (existing : id < machine.scopes.nextId)
    (unreached : ¬ machine.scopes.Reaches (· = machine.current) id) :
    (machineAfter (task.run fuel machine)).scopes.cells[id]? = machine.scopes.cells[id]? := by
  have within : (reachableScopes machine.scopes (· = machine.current)).Holds machine :=
    ⟨reachableScopes_sound holds.sound, holds.current, fun _ => .root rfl⟩
  exact untouched_of_grows (Task.governed fuel task machine within code).grows existing unreached

/-- The scopes after a call of a declared function are those after its body. -/
theorem scopes_invoke_function (fuel : Nat) (closure : Closure) (line : Nat)
    (arguments : List Value) (machine : Machine) :
    (machineAfter (invoke (fuel + 1) (.function closure) line arguments machine)).scopes =
      (machineAfter (executeAll fuel closure.body
        (machine.inScope closure.scope (.ofArguments closure.params arguments)))).scopes := by
  have called : invoke (fuel + 1) (.function closure) line arguments machine =
      EStateM.bind ((Entry.frame closure.scope (.ofArguments closure.params arguments)).around
        (executeAll fuel closure.body)) (fun signal => pure signal.result) machine := rfl
  rw [called]
  simp only [EStateM.bind, Entry.around, Entry.enter]
  cases executeAll fuel closure.body
    (machine.inScope closure.scope (.ofArguments closure.params arguments)) with
  | ok signal after => rfl
  | error halt after => rfl

theorem invoke_unreached_untouched {machine : Machine} (sound : existingScopes.Sound machine.scopes)
    (fuel : Nat) {callable : Callable} (line : Nat) {arguments : List Value}
    {roots : ScopeId → Prop}
    (reached : ∀ value ∈ .callable callable :: arguments, ∀ id, value.declaredIn? = some id →
      id < machine.scopes.nextId ∧ roots id)
    {id : ScopeId} (existing : id < machine.scopes.nextId)
    (unreached : ¬ machine.scopes.Reaches roots id) :
    (machineAfter (invoke fuel callable line arguments machine)).scopes.cells[id]? =
      machine.scopes.cells[id]? := by
  have known : ∀ value ∈ .callable callable :: arguments,
      (reachableScopes machine.scopes roots).Knows machine.scopes.nextId value := by
    intro value mem
    rw [reachableScopes_knows]
    intro inner declared
    exact ⟨(reached value mem inner declared).1, .root (reached value mem inner declared).2⟩
  cases fuel with
  | zero => rfl
  | succ fuel =>
    cases callable with
    | native primitive =>
      have quiet := Quiet.native machine primitive line arguments
      rw [invoke, quiet.scopes_eq]
    | function closure =>
      rw [scopes_invoke_function]
      have callee := known _ List.mem_cons_self
      have holds : (reachableScopes machine.scopes roots).Holds
          (machine.inScope closure.scope (.ofArguments closure.params arguments)) := by
        apply Entry.inScope_holds (reachableScopes_sound sound) callee.2
        intro name value bound
        exact known value (List.mem_cons_of_mem _ (Bindings.mem_of_get?_ofArguments bound))
      have entered : (reachableScopes machine.scopes roots).Grows machine.scopes
          (machine.inScope closure.scope (.ofArguments closure.params arguments)).scopes :=
            .push _ _ _
      have governed := Task.governed fuel (.executeAll closure.body) _ holds fun _ _ => trivial
      exact untouched_of_grows (entered.trans governed.grows) existing unreached

/-- Whatever is executed or evaluated in a scope changes no old scope that could not be reached from
it, and a call changes no old scope that could not be reached from the function, its arguments and
the global scope. -/
theorem unreached_scopes_untouched {machine : Machine} (passes : Session.Passes machine)
    (fuel : Nat) (id : ScopeId) (existing : id < machine.scopes.nextId) :
    (∀ current, current < machine.scopes.nextId → ¬ machine.scopes.Reaches (· = current) id →
      (∀ statement,
        (machineAfter (execute fuel statement { machine with current })).scopes.cells[id]? =
        machine.scopes.cells[id]?) ∧
      ∀ expression,
        (machineAfter (evaluate fuel expression { machine with current })).scopes.cells[id]? =
        machine.scopes.cells[id]?) ∧
    ∀ callable line arguments,
      (∀ value ∈ .callable callable :: arguments, ∀ scope, value.declaredIn? = some scope →
        scope < machine.scopes.nextId) →
      ¬ machine.scopes.Reaches
        (fun root => root = Scopes.globalId ∨ ∃ value ∈ .callable callable :: arguments,
          value.declaredIn? = some root)
        id →
      (machineAfter (invoke fuel callable line arguments machine)).scopes.cells[id]? =
        machine.scopes.cells[id]? := by
  rcases passes with ⟨steps, source, sink, clock, mem⟩
  have holds := (Session.trace_governed (fun _ => trivial) steps (.initial source sink clock)
    (existingScopes_holds_initial source sink clock)).1 machine mem
  constructor
  · intro current place unreached
    have holdsThere : existingScopes.Holds { machine with current } := ⟨holds.sound, place⟩
    constructor
    · intro statement
      exact Task.unreached_untouched holdsThere fuel (.execute statement) trivial existing unreached
    · intro expression
      exact Task.unreached_untouched holdsThere fuel (.evaluate expression) trivial
        existing unreached
  · intro callable line arguments exist unreached
    refine invoke_unreached_untouched holds.sound fuel line ?_ existing unreached
    intro value mem scope declared
    exact ⟨exist value mem scope declared, .inr ⟨value, mem, declared⟩⟩

/-- The session after a block that declares a variable. -/
def afterBlock : Session :=
  (Session.forceTokens 9
    ([Kind.leftBrace, .var, .identifier, .semicolon, .rightBrace].map fun kind => ⟨⟨"a", 1⟩, kind⟩)
    (.initial {} {} { time := fun _ => 0 })).value

theorem afterBlock_passes : Session.Passes afterBlock.machine := by
  refine ⟨[(9, .forceTokens ([Kind.leftBrace, .var, .identifier, .semicolon, .rightBrace].map
    fun kind => ⟨⟨"a", 1⟩, kind⟩))], {}, {}, { time := fun _ => 0 }, ?_⟩
  exact List.mem_append_right _ (List.mem_singleton.2 rfl)

theorem afterBlock_not_reaches : ¬ afterBlock.machine.scopes.Reaches (· = Scopes.globalId) 1 := by
  have only : ∀ id, afterBlock.machine.scopes.Reaches (· = Scopes.globalId) id →
      id = Scopes.globalId := by
    intro id reaches
    induction reaches with
    | root same => exact same
    | @enclosing id scope outer _ found link ih =>
      subst ih
      have found : Scopes.initial.cells[Scopes.globalId]? = some scope := found
      rw [(Scopes.of_getElem?_initial found).2.1] at link
      cases link
    | @declaredIn id scope name value inner _ found bound declared ih =>
      subst ih
      have found : Scopes.initial.cells[Scopes.globalId]? = some scope := found
      rcases (Scopes.of_getElem?_initial found).2.2 name value bound with ⟨primitive, rfl⟩
      cases declared
  intro reaches
  cases only 1 reaches

/-- The scope of the block is there after it, and nothing that is executed in the global scope
changes it. -/
theorem unreached_scopes_untouched_afterBlock :
    (afterBlock.machine.scopes.cells[1]?.map fun scope => scope.bindings.binds "a") = some true ∧
      ∀ statement,
        (machineAfter
          (execute 9 statement { afterBlock.machine with current :=
            Scopes.globalId })).scopes.cells[1]? =
          afterBlock.machine.scopes.cells[1]? := by
  refine ⟨rfl, ?_⟩
  exact ((unreached_scopes_untouched afterBlock_passes 9 1 (by decide)).1
    Scopes.globalId (by decide)
    afterBlock_not_reaches).1

end Lox
