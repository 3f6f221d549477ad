import Lox.Proofs.Machine.Fuel
import Lox.Proofs.Machine.Names

/-!
# Scopes without names

A scope that binds nothing is not noticed by an expression: evaluating it there is the same as
evaluating it in the scope around.  Functions that are called meanwhile run in scopes of their own,
and none of them gives the empty scope a name.

* `Scopes.Idle`: a scope binds nothing, and lies in another one.
* `Scopes.Idle.keep`: as long as names are kept, the scope stays so.
* `Task.run_movedTo`: a task that computes values runs in either of the scopes in the same way.
-/

namespace Lox

open Plan Eval

namespace Scopes

/-- The scope `inner` binds nothing and lies in `outer`.  From there the chain leads to earlier and
earlier scopes. -/
structure Idle (inner outer : ScopeId) (scopes : Scopes) : Prop where
  empty : scopes.cells[inner]? = some ⟨some outer, []⟩
  outer_lt : outer < inner
  descends : ∀ (id : ScopeId) (scope : Scope) (next : ScopeId), id ≤ outer →
    scopes.cells[id]? = some scope → scope.enclosing = some next → next < id

variable {inner outer : ScopeId} {scopes : Scopes}

theorem eq_nil_of_binds {bindings : Bindings} (none : ∀ name, bindings.binds name = false) :
    bindings = [] := by
  cases bindings with
  | nil => rfl
  | cons binding rest =>
    have bound := none binding.1
    simp [Bindings.binds, Bindings.get?] at bound

theorem Idle.keep {after : Scopes} (idle : Idle inner outer scopes)
    (keeps : KeepsNames (fun _ => False) scopes after) : Idle inner outer after where
  empty := by
    rcases keeps inner _ idle.empty with ⟨⟨enclosing, bindings⟩, found, link, names⟩
    have none : bindings = [] := eq_nil_of_binds (names id)
    cases link
    rw [found, none]
  outer_lt := idle.outer_lt
  descends id scope next le found link := by
    have existing : id < scopes.nextId :=
      Nat.lt_trans (Nat.lt_of_le_of_lt le idle.outer_lt) (lt_nextId_of_some idle.empty)
    rcases exists_of_lt_nextId existing with ⟨old, foundOld⟩
    rcases keeps id old foundOld with ⟨now, foundNow, linkNow, -⟩
    rw [found] at foundNow
    cases foundNow
    rw [linkNow] at link
    exact idle.descends id old next le foundOld link

/-- Once a chain has no more scopes than there are steps, more steps make no difference. -/
theorem Idle.resolveWithin_eq (idle : Idle inner outer scopes) (name : String) {id : ScopeId}
    (le : id ≤ outer) {steps : Nat} (enough : id < steps) :
    scopes.resolveWithin name steps id = scopes.resolveWithin name (id + 1) id := by
  induction id using Nat.strongRecOn generalizing steps with
  | ind id ih =>
    rcases steps with _ | steps
    · exact absurd enough (Nat.not_lt_zero id)
    · unfold resolveWithin
      cases found : scopes.cells[id]? with
      | none => rfl
      | some scope =>
        cases link : scope.enclosing with
        | none => simp only [link]
        | some next =>
          have earlier := idle.descends id scope next le found link
          have leNext := Nat.le_trans (Nat.le_of_lt earlier) le
          have given :=
            ih next earlier leNext (Nat.lt_of_lt_of_le earlier (Nat.le_of_lt_succ enough))
          have own := ih next earlier leNext earlier
          simp only [link, given, own]

theorem Idle.resolve?_eq (idle : Idle inner outer scopes) (name : String) :
    scopes.resolve? inner name = scopes.resolve? outer name := by
  have first : scopes.resolve? inner name = scopes.resolveWithin name inner outer := by
    rw [resolve?, resolveWithin]
    simp only [idle.empty]
    rfl
  rw [first]
  exact idle.resolveWithin_eq name (Nat.le_refl outer) idle.outer_lt

theorem Idle.get?_eq (idle : Idle inner outer scopes) (name : String) :
    scopes.get? inner name = scopes.get? outer name := by
  rw [get?_eq_bind_resolve?, get?_eq_bind_resolve?, idle.resolve?_eq]

theorem Idle.assign?_eq (idle : Idle inner outer scopes) (name : String) (value : Value) :
    scopes.assign? inner name value = scopes.assign? outer name value := by
  unfold assign?
  rw [idle.resolve?_eq]

end Scopes

open Scopes

/-! ## The same run in either scope -/

/-- The machine in another scope. -/
def Machine.movedTo (id : ScopeId) (machine : Machine) : Machine := { machine with current := id }

theorem Machine.movedTo_eq_self {id : ScopeId} {machine : Machine} (here : machine.current = id) :
    machine.movedTo id = machine := by
  subst here
  rfl

/-- The same result, with the machine left in another scope. -/
def leftIn {α : Type} (id : ScopeId) : EStateM.Result Halt Machine α → EStateM.Result Halt Machine α
  | .ok value machine => .ok value (machine.movedTo id)
  | .error halt machine => .error halt (machine.movedTo id)

/-- The run does the same in every scope. -/
def Placeless {α : Type} (run : Eval α) : Prop :=
  ∀ id machine, run (Machine.movedTo id machine) = leftIn id (run machine)

namespace Placeless

variable {α : Type}

theorem fixed {run : Eval α} (fixed : Fixed run) : Placeless run := by
  intro id machine
  cases fixed with
  | value value => rfl
  | fails other => rfl

theorem native (primitive : Native) (line : Nat) (arguments : List Value) :
    Placeless (primitive.invoke line arguments) := by
  cases primitive with
  | clock =>
    intro id machine
    rcases read : machine.clock.read with ⟨time, clock⟩
    have readMoved : (machine.movedTo id).clock.read = (time, clock) := read
    simp only [Native.invoke, Native.readClock, read, readMoved]
    cases time <;> rfl
  | input =>
    intro id machine
    rcases read : machine.source.read with ⟨reading, source⟩
    have readMoved : (machine.movedTo id).source.read = (reading, source) := read
    simp only [Native.invoke, Native.readLine, read, readMoved]
    cases reading <;> rfl
  | number => exact .fixed (.number line _)

theorem print (text : String) : Placeless (Eval.print text) := by
  intro id machine
  cases written : machine.sink.writeLine text with
  | ok value sink =>
    have writtenMoved : (machine.movedTo id).sink.writeLine text = .ok value sink := written
    simp only [Eval.print, written, writtenMoved]
    rfl
  | error error sink =>
    have writtenMoved : (machine.movedTo id).sink.writeLine text = .error error sink := written
    simp only [Eval.print, written, writtenMoved]
    rfl

/-- In particular it does the same in two scopes. -/
theorem movedTo {run : Eval α} (placeless : Placeless run) (inner outer : ScopeId)
    (machine : Machine) :
    run (machine.movedTo inner) = leftIn inner (run (machine.movedTo outer)) := by
  rw [placeless inner machine, placeless outer machine]
  cases run machine <;> rfl

end Placeless

/-! ## Either of two scopes -/

/-- The task computes values. -/
def Task.IsValue : Task → Prop
  | .evaluate _ | .evaluateAll _ | .evaluateOption _ | .invoke _ _ _ => True
  | .execute _ | .executeAll _ | .loop _ _ => False

/-- The task is started in a scope that does not depend on the current one, or it computes
values. -/
def Task.Unmoved (task : Task) : Entry → Prop
  | .frame _ _ => True
  | .plain | .call _ => task.IsValue
  | .block => False

theorem Task.IsValue.not_declares {task : Task} (isValue : task.IsValue) : ¬ task.Declares := by
  cases task with
  | evaluate | evaluateAll | evaluateOption | invoke => exact id
  | _ => cases isValue

/-- Such a task declares nothing in the current scope. -/
theorem Task.Unmoved.opens {task : Task} {entry : Entry} (unmoved : task.Unmoved entry)
    (declares : task.Declares) : entry.Opens := by
  cases entry with
  | frame enclosing bindings => exact trivial
  | block => exact trivial
  | plain => exact absurd declares (IsValue.not_declares unmoved)
  | call line => exact absurd declares (IsValue.not_declares unmoved)

theorem Task.Begins.unmoved {outer task : Task} {entry : Entry} (begins : outer.Begins entry task)
    (isValue : outer.IsValue) : task.Unmoved entry := by
  cases begins with
  | operand | arguments | call | argument | otherArguments | present | body => exact trivial
  | _ => cases isValue

section Moved

variable {α : Type} {inner outer : ScopeId} {machine : Machine}

theorem Act.perform_movedTo {action : Act α} (planned : action.IsPlanned False)
    (idle : Idle inner outer machine.scopes) :
    action.perform (machine.movedTo inner) =
      leftIn inner (action.perform (machine.movedTo outer)) := by
  cases action with
  | lookup name =>
    have same : (machine.movedTo inner).scopes.get? (machine.movedTo inner).current name.text =
        (machine.movedTo outer).scopes.get? (machine.movedTo outer).current name.text :=
          idle.get?_eq name.text
    simp only [perform, Eval.lookup, same]
    cases (machine.movedTo outer).scopes.get? (machine.movedTo outer).current name.text <;> rfl
  | assign name value =>
    have same :
        (machine.movedTo inner).scopes.assign? (machine.movedTo inner).current name.text value =
        (machine.movedTo outer).scopes.assign? (machine.movedTo outer).current name.text value :=
      idle.assign?_eq name.text value
    simp only [perform, Eval.assign, same]
    cases (machine.movedTo outer).scopes.assign? (machine.movedTo outer).current name.text value <;>
      rfl
  | define name value => cases planned
  | declare name params body => cases planned
  | unary op line operand => exact (Placeless.fixed (.unary op line operand)).movedTo ..
  | binary op line left right => exact (Placeless.fixed (.binary op line left right)).movedTo ..
  | callee line value => exact (Placeless.fixed (.callee line value)).movedTo ..
  | arity line callable arguments =>
    exact (Placeless.fixed (.arity line callable arguments)).movedTo ..
  | native primitive line arguments => exact (Placeless.native primitive line arguments).movedTo ..
  | print text => exact (Placeless.print text).movedTo ..
  | fail line fault => rfl

/-- A task is started in either scope in the same way. -/
theorem Entry.around_movedTo {entry : Entry} {task : Task} {run : Eval task.Result}
    (unmoved : task.Unmoved entry)
    (runs : task.IsValue → ∀ machine : Machine, Idle inner outer machine.scopes →
      run (machine.movedTo inner) = leftIn inner (run (machine.movedTo outer)))
    (idle : Idle inner outer machine.scopes) :
    entry.around run (machine.movedTo inner) =
      leftIn inner (entry.around run (machine.movedTo outer)) := by
  cases entry with
  | plain =>
    rw [around_plain]
    exact runs unmoved machine idle
  | block => cases unmoved
  | frame enclosing bindings =>
    have entered : ∀ id, (frame enclosing bindings).enter (machine.movedTo id) =
        .ok (machine.inScope enclosing bindings) := fun _ => rfl
    simp only [around, entered]
    cases run (machine.inScope enclosing bindings) <;> rfl
  | call line =>
    by_cases full : Machine.maxDepth ≤ machine.depth
    · have refused : ∀ id, (call line).enter (machine.movedTo id) = .error (.tooDeep line) :=
        fun _ => if_pos full
      simp only [around, refused]
      rfl
    · have entered : ∀ id, (call line).enter (machine.movedTo id) =
          .ok (Machine.movedTo id { machine with depth := machine.depth + 1 }) :=
            fun _ => if_neg full
      have same := runs unmoved { machine with depth := machine.depth + 1 } idle
      simp only [around, entered, same]
      cases run (Machine.movedTo outer { machine with depth := machine.depth + 1 }) <;> rfl

end Moved

theorem Entry.of_around_eq_ok {α : Type} {entry : Entry} {run : Eval α} {machine after : Machine}
    {value : α} (ran : entry.around run machine = .ok value after) :
    ∃ inner last, entry.enter machine = .ok inner ∧ run inner = .ok value last ∧
      after = entry.leave machine last := by
  unfold around at ran
  cases entered : entry.enter machine with
  | error halt => simp only [entered, reduceCtorEq] at ran
  | ok inner =>
    simp only [entered] at ran
    cases ended : run inner with
    | ok result last =>
      simp only [ended] at ran
      cases ran
      exact ⟨inner, last, rfl, ended, rfl⟩
    | error halt last => simp only [ended, reduceCtorEq] at ran

section Sequence

variable {α β : Type} {inner outer : ScopeId}

/-- A sequence does the same in either scope if its parts do. -/
theorem bind_movedTo {first : Eval α} {next : α → Eval β} {machine : Machine}
    (same : first (machine.movedTo inner) = leftIn inner (first (machine.movedTo outer)))
    (rest : ∀ value after, first (machine.movedTo outer) = .ok value after → after.current = outer ∧
      next value (after.movedTo inner) = leftIn inner (next value (after.movedTo outer))) :
    (first >>= next) (machine.movedTo inner) =
      leftIn inner ((first >>= next) (machine.movedTo outer)) := by
  cases ran : first (machine.movedTo outer) with
  | ok value after =>
    rw [ran] at same
    rcases rest value after ran with ⟨stays, sameNext⟩
    rw [Machine.movedTo_eq_self stays] at sameNext
    rw [bind_of_ok ran, bind_of_ok same, sameNext]
  | error halt after =>
    rw [ran] at same
    rw [bind_of_error ran, bind_of_error same]
    rfl

end Sequence

namespace Plan

variable {α : Type} {run : (task : Task) → Eval task.Result} {inner outer : ScopeId}

/-- Following a plan is the same in either scope, if it starts only tasks of which that is true. -/
theorem follow_movedTo
    (control : ∀ task start, Machine.SameControl start (machineAfter (run task start)))
    (names : ∀ task start, KeepsNames (fun id => task.Declares ∧ id = start.current) start.scopes
      (machineAfter (run task start)).scopes)
    (tasks : ∀ task : Task, task.IsValue → ∀ machine : Machine, Idle inner outer machine.scopes →
      run task (machine.movedTo inner) = leftIn inner (run task (machine.movedTo outer)))
    {plan : Plan α} (only : plan.StartsOnly False fun entry task => task.Unmoved entry)
    {machine : Machine} (idle : Idle inner outer machine.scopes) :
    plan.follow run (machine.movedTo inner) =
      leftIn inner (plan.follow run (machine.movedTo outer)) := by
  induction plan generalizing machine with
  | done value => rfl
  | act action next ih =>
    refine bind_movedTo (Act.perform_movedTo only.1 idle) ?_
    intro value after performed
    have kept := Act.perform_keepsNames only.1 (machine.movedTo outer)
    rw [performed] at kept
    have back := (Act.sameControl_of_perform only.1 performed).current
    exact ⟨back, ih value (only.2 value) (idle.keep (kept.mono fun _ _ out => out.1))⟩
  | start entry task next ih =>
    refine bind_movedTo (Entry.around_movedTo only.1 (tasks task) idle) ?_
    intro value after ran
    rcases Entry.of_around_eq_ok ran with ⟨start, last, entered, ended, rfl⟩
    have same := control task start
    have inside := names task start
    rw [ended] at same inside
    have inherits : task.Declares → ¬ entry.Opens → False :=
      fun declares stays => stays (only.1.opens declares)
    have kept := Entry.leave_keepsNames entered inherits inside
    have back := (Entry.leave_sameControl entered same).current
    exact ⟨back, ih value (only.2 value) (idle.keep (kept.mono fun _ _ out => out.1))⟩

end Plan

/-- A task that computes values runs in an empty scope as in the scope around. -/
theorem Task.run_movedTo {inner outer : ScopeId} (fuel : Nat) (task : Task) (isValue : task.IsValue)
    (machine : Machine) (idle : Idle inner outer machine.scopes) :
    task.run fuel (machine.movedTo inner) =
      leftIn inner (task.run fuel (machine.movedTo outer)) := by
  induction fuel generalizing task machine with
  | zero =>
    rw [Task.run_zero]
    rfl
  | succ fuel ih =>
    rw [Task.run_succ]
    have only := task.plan_startsOnly.mono isValue.not_declares fun _ _ begins =>
      begins.unmoved isValue
    exact follow_movedTo (Task.run_sameControl fuel) (Task.run_keepsNames fuel) ih only idle

theorem leftIn_leftIn {α : Type} (first last : ScopeId) (result : EStateM.Result Halt Machine α) :
    leftIn last (leftIn first result) = leftIn last result := by
  cases result <;> rfl

theorem leftIn_eq_self {α : Type} {id : ScopeId} {result : EStateM.Result Halt Machine α}
    (here : (machineAfter result).current = id) : leftIn id result = result := by
  subst here
  cases result <;> rfl

/-- It does not matter whether an empty scope is left after a plan that computes values, or
before. -/
theorem Plan.follow_leftIn {α : Type} {inner outer : ScopeId} (fuel : Nat) {plan : Plan α}
    (only : plan.StartsOnly False fun entry task => task.Unmoved entry) {machine : Machine}
    (idle : Idle inner outer machine.scopes) (here : machine.current = inner) :
    leftIn outer (plan.follow (Task.run fuel) machine) = plan.follow (Task.run fuel)
      (machine.movedTo outer) := by
  have same :=
    follow_movedTo (Task.run_sameControl fuel) (Task.run_keepsNames fuel)
      (Task.run_movedTo fuel) only idle
  rw [Machine.movedTo_eq_self here] at same
  rw [same, leftIn_leftIn]
  exact leftIn_eq_self
    (follow_sameControl (Task.run_sameControl fuel) only (machine.movedTo outer)).current

/-- A new scope without names in the current one. -/
theorem Scopes.idle_inScope {machine : Machine} (existing : machine.current < machine.scopes.nextId)
    (descends : ∀ (id : ScopeId) (scope : Scope) (next : ScopeId), machine.scopes.cells[id]? =
      some scope → scope.enclosing = some next → next < id) :
    Idle machine.scopes.nextId machine.current (machine.inScope machine.current []).scopes where
  empty := Array.getElem?_push_size
  outer_lt := existing
  descends id scope next le found link := by
    change (machine.scopes.push machine.current []).cells[id]? = some scope at found
    rw [getElem?_push_of_lt _ _ (Nat.lt_of_le_of_lt le existing)] at found
    exact descends id scope next found link

end Lox
