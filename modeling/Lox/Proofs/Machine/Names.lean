import Lox.Proofs.Machine.ControlState
import Lox.Proofs.Machine.Discipline

/-!
# The names that scopes bind

A run binds new names in new scopes, and in the scope that it is in if it executes a declaration
there.  An assignment gives a new value to a name that is bound.  So all other scopes go on to bind
just the names that they did.

* `Scopes.KeepsNames`: the names in old scopes are kept, some scopes apart.
* `Task.Begins.declares`: a task that declares nothing in its scope starts none that does.
* `Task.run_keepsNames`: what a run keeps, by induction on the fuel.
-/

namespace Lox

open Plan Eval

/-- Old scopes keep their place in the chain, and apart from some of them they bind the same
names. -/
def Scopes.KeepsNames (apart : ScopeId → Prop) (before after : Scopes) : Prop :=
  ∀ (id : ScopeId) (scope : Scope), before.cells[id]? = some scope →
    ∃ now : Scope, after.cells[id]? = some now ∧ now.enclosing = scope.enclosing ∧
      (¬ apart id → ∀ name, now.bindings.binds name = scope.bindings.binds name)

namespace Scopes.KeepsNames

variable {apart : ScopeId → Prop} {before middle after : Scopes}

theorem refl (scopes : Scopes) : KeepsNames apart scopes scopes :=
  fun _ scope found => ⟨scope, found, rfl, fun _ _ => rfl⟩

theorem trans (first : KeepsNames apart before middle) (second : KeepsNames apart middle after) :
    KeepsNames apart before after := by
  intro id scope found
  rcases first id scope found with ⟨between, foundBetween, linkBetween, namesBetween⟩
  rcases second id between foundBetween with ⟨now, foundNow, link, names⟩
  refine ⟨now, foundNow, link.trans linkBetween, ?_⟩
  intro kept name
  rw [names kept, namesBetween kept]

theorem mono {more : ScopeId → Prop} (keeps : KeepsNames apart before after)
    (imp : ∀ id, id < before.nextId → apart id → more id) : KeepsNames more before after := by
  intro id scope found
  rcases keeps id scope found with ⟨now, foundNow, link, names⟩
  exact ⟨now, foundNow, link, fun kept => names fun out =>
    kept (imp id (lt_nextId_of_some found) out)⟩

/-- A declaration in a scope leaves the names in all others. -/
theorem define (scopes : Scopes) (id : ScopeId) (name : String) (value : Value) :
    KeepsNames (· = id) scopes (scopes.define id name value) := by
  intro other scope found
  rcases getElem?_define_of_some name value found with ⟨now, foundNow, link, -⟩
  refine ⟨now, foundNow, link, ?_⟩
  intro ne bound
  rw [getElem?_define_ne name value ne, found] at foundNow
  cases foundNow
  rfl

theorem binds_insert_of_binds {bindings : Bindings} {name : String} (bound : bindings.binds name)
    (value : Value) (other : String) :
    (bindings.insert name value).binds other = bindings.binds other := by
  unfold Bindings.binds at bound ⊢
  rw [Bindings.get?_insert]
  split
  · rename_i same
    rw [same, bound]
    rfl
  · rfl

/-- A new value for a name that a scope binds leaves the names in all scopes. -/
theorem rebind {scopes : Scopes} {id : ScopeId} {target : Scope} {name : String} (value : Value)
    (found : scopes.cells[id]? = some target) (bound : target.bindings.binds name) :
    KeepsNames apart scopes (scopes.define id name value) := by
  intro other scope foundOther
  by_cases same : other = id
  · subst same
    rw [found] at foundOther
    cases foundOther
    refine ⟨{ target with bindings := target.bindings.insert name value }, ?_, rfl, ?_⟩
    · rw [Scopes.define, Array.getElem?_modify, if_pos rfl, found]
      rfl
    · exact fun _ other => binds_insert_of_binds bound value other
  · refine ⟨scope, ?_, rfl, fun _ _ => rfl⟩
    rw [getElem?_define_ne name value same]
    exact foundOther

theorem push (scopes : Scopes) (enclosing : ScopeId) (bindings : Bindings) :
    KeepsNames apart scopes (scopes.push enclosing bindings) := by
  intro id scope found
  refine ⟨scope, ?_, rfl, fun _ _ => rfl⟩
  rw [getElem?_push_of_lt enclosing bindings (lt_nextId_of_some found)]
  exact found

/-- What happens to a new scope does not matter for the old ones. -/
theorem of_push {scopes : Scopes} {enclosing : ScopeId} {bindings : Bindings} {inside : Prop}
    (keeps : KeepsNames (fun id => inside ∧ id = scopes.nextId)
      (scopes.push enclosing bindings) after) :
    KeepsNames apart scopes after := by
  have whole : KeepsNames (· = scopes.nextId) scopes after :=
    (push scopes enclosing bindings).trans (keeps.mono fun _ _ out => out.2)
  exact whole.mono fun id existing same => absurd same (Nat.ne_of_lt existing)

end Scopes.KeepsNames

open Scopes

/-! ## Acts and tasks -/

theorem Act.assign_keepsNames {apart : ScopeId → Prop} (name : Lexeme) (value : Value)
    (machine : Machine) :
    KeepsNames apart machine.scopes (machineAfter (Eval.assign name value machine)).scopes := by
  unfold Eval.assign Scopes.assign?
  cases resolved : machine.scopes.resolve? machine.current name.text with
  | none => exact .refl _
  | some target =>
    rcases Scopes.of_resolveWithin (P := fun _ => True) (fun _ _ _ _ _ _ => trivial)
      trivial resolved with
      ⟨-, scope, found, bound⟩
    exact .rebind value found bound

theorem Fixed.keepsNames {α : Type} {run : Eval α} (fixed : Fixed run) {apart : ScopeId → Prop}
    (machine : Machine) : KeepsNames apart machine.scopes (machineAfter (run machine)).scopes := by
  rw [fixed.machine_eq]
  exact .refl _

/-- An act binds a new name only if it is a declaration, and only in the current scope. -/
theorem Act.perform_keepsNames {α : Type} {declares : Prop} {action : Act α}
    (planned : action.IsPlanned declares) (machine : Machine) :
    KeepsNames (fun id => declares ∧ id = machine.current) machine.scopes
      (machineAfter (action.perform machine)).scopes := by
  cases action with
  | lookup name =>
    change KeepsNames _ _ (machineAfter (Eval.lookup name machine)).scopes
    unfold Eval.lookup
    split
    · exact .refl _
    · exact .refl _
  | assign name value => exact assign_keepsNames name value machine
  | define name value =>
    exact (KeepsNames.define machine.scopes machine.current name.text value).mono fun _ _ same =>
      ⟨planned, same⟩
  | declare name params body => exact .refl _
  | unary op line operand => exact (Fixed.unary op line operand).keepsNames machine
  | binary op line left right => exact (Fixed.binary op line left right).keepsNames machine
  | callee line value => exact (Fixed.callee line value).keepsNames machine
  | arity line callable arguments => exact (Fixed.arity line callable arguments).keepsNames machine
  | native primitive line arguments =>
    change KeepsNames _ _ (machineAfter (primitive.invoke line arguments machine)).scopes
    rw [(Quiet.native machine primitive line arguments).scopes_eq]
    exact .refl _
  | print text =>
    change KeepsNames _ _ (machineAfter (Eval.print text machine)).scopes
    unfold Eval.print
    split
    · exact .refl _
    · exact .refl _
  | fail line fault => exact .refl _

/-- The task is started in a new scope. -/
def Entry.Opens : Entry → Prop
  | .block | .frame _ _ => True
  | .plain | .call _ => False

/-- A task that declares something in its scope is started in a new scope, or by a task that does
so, too. -/
theorem Task.Begins.declares {outer task : Task} {entry : Entry} (begins : outer.Begins entry task)
    (declares : task.Declares) (stays : ¬ entry.Opens) : outer.Declares := by
  cases begins with
  | body => exact absurd trivial stays
  | block => exact absurd trivial stays
  | branch mem => exact .branch mem declares
  | «while» => exact .while declares
  | statement => exact ⟨_, List.mem_cons_self, declares⟩
  | otherStatements =>
    rcases declares with ⟨statement, mem, declares⟩
    exact ⟨statement, List.mem_cons_of_mem _ mem, declares⟩
  | loopBody => exact declares
  | again => exact declares
  | _ => cases declares

/-- What a task that is started so keeps, from before it is started to after it is left. -/
theorem Entry.leave_keepsNames {entry : Entry} {declares inside : Prop}
    {machine inner after : Machine} (entered : entry.enter machine = .ok inner)
    (inherits : inside → ¬ entry.Opens → declares)
    (keeps : KeepsNames (fun id => inside ∧ id = inner.current) inner.scopes after.scopes) :
    KeepsNames (fun id => declares ∧ id = machine.current) machine.scopes
      (entry.leave machine after).scopes := by
  rw [leave_scopes]
  cases entry with
  | plain =>
    cases entered
    exact keeps.mono fun _ _ out => ⟨inherits out.1 (fun opens => opens), out.2⟩
  | call line =>
    rw [enter] at entered
    split at entered
    · cases entered
    · cases entered
      exact keeps.mono fun _ _ out => ⟨inherits out.1 (fun opens => opens), out.2⟩
  | block =>
    cases entered
    exact .of_push keeps
  | frame enclosing bindings =>
    cases entered
    exact .of_push keeps

namespace Plan

variable {α : Type} {run : (task : Task) → Eval task.Result} {declares : Prop}
    {can : Entry → Task → Prop}

theorem follow_keepsNames
    (control : ∀ task inner, Machine.SameControl inner (machineAfter (run task inner)))
    (tasks : ∀ task inner, KeepsNames (fun id => task.Declares ∧ id = inner.current) inner.scopes
      (machineAfter (run task inner)).scopes)
    {plan : Plan α} (only : plan.StartsOnly declares can)
    (inherits : ∀ entry task, can entry task → task.Declares → ¬ entry.Opens → declares)
    (machine : Machine) :
    KeepsNames (fun id => declares ∧ id = machine.current) machine.scopes
      (machineAfter (plan.follow run machine)).scopes := by
  have course := plan.course run (fun _ _ => []) machine
  generalize plan.follow run machine = result at course
  generalize plan.trace run (fun _ _ => []) machine = events at course
  induction course with
  | done => exact .refl _
  | @acted β action next machine value after events result performed _ ih =>
    have first := Act.perform_keepsNames only.1 machine
    rw [performed] at first
    have same : after.current = machine.current :=
      (Act.sameControl_of_perform only.1 performed).current
    have rest := ih (only.2 value)
    rw [same] at rest
    exact first.trans rest
  | @stopped β action next machine halt after performed =>
    have last := Act.perform_keepsNames only.1 machine
    rw [performed] at last
    exact last
  | refused => exact .refl _
  | @returned entry task next machine inner value after events result entered ran _ ih =>
    have inside := tasks task inner
    have same := control task inner
    rw [ran] at inside same
    have first := Entry.leave_keepsNames entered (inherits entry task only.1) inside
    have back : (entry.leave machine after).current = machine.current :=
      (Entry.leave_sameControl entered same).current
    have rest := ih (only.2 value)
    rw [back] at rest
    exact first.trans rest
  | @halted entry task next machine inner halt after entered ran =>
    have inside := tasks task inner
    rw [ran] at inside
    exact Entry.leave_keepsNames entered (inherits entry task only.1) inside

end Plan

/-- A task binds new names only in the scope that it is started in, if it declares something
there. -/
theorem Task.run_keepsNames (fuel : Nat) (task : Task) (machine : Machine) :
    KeepsNames (fun id => task.Declares ∧ id = machine.current) machine.scopes
      (machineAfter (task.run fuel machine)).scopes := by
  induction fuel generalizing task machine with
  | zero =>
    rw [Task.run_zero]
    exact .refl _
  | succ fuel ih =>
    rw [Task.run_succ]
    exact follow_keepsNames (Task.run_sameControl fuel) ih task.plan_startsOnly
      (fun _ _ begins => begins.declares) machine

end Lox
