import Lox.Proofs.Machine.Store
import Lox.Proofs.Machine.Trace

/-!
# Disciplines

A run gets at a scope only through the current one: by the scopes around it, and by the scopes in
which the functions that are bound there were declared.  A *discipline* says which scopes a run may
be in and which statements it may execute.  A run that starts within a discipline stays within it,
whatever it does and however it ends.

* `Discipline.Holds`: the machine is within the discipline, and so is all that can be got at from
  it.
* `Discipline.Grows`: the store goes on from an earlier one, and scopes that no run may be in are
  left as they were.
* `Act.meets`, `Entry.enter_holds`, `Entry.leave_holds`: what acts and the starting of tasks keep.
-/

namespace Lox

open Eval Plan

/-- The declaration that a function value was made of. -/
def Closure.declaration (closure : Closure) : Stmt :=
  .function closure.name closure.params closure.body

/-- The statements that a statement is made of. -/
def Stmt.parts : Stmt → List Stmt
  | .block statements => statements
  | .function _ _ body => body
  | .if _ thenBranch elseBranch => thenBranch :: elseBranch.toList
  | .while _ body => [body]
  | _ => []

/-- Which scopes a run may be in and which statements it may execute. -/
structure Discipline where
  /-- A scope that a run may be in, where so many scopes exist. -/
  place : Nat → ScopeId → Prop
  /-- A statement that a run may execute. -/
  code : Stmt → Prop
  /-- How many scopes there are at least. -/
  base : Nat
  place_mono : ∀ {count later id}, count ≤ later → place count id → place later id
  place_of_lt : ∀ {count later id}, id < count → count ≤ later → place later id → place count id
  place_new : ∀ {count}, base ≤ count → place (count + 1) count
  code_parts : ∀ {statement part}, code statement → part ∈ statement.parts → code part

namespace Discipline

variable (D : Discipline)

/-- A value that a run may have: a declared function is from a statement and a scope of the
discipline. -/
def Knows (count : Nat) : Value → Prop
  | .callable (.function closure) => D.code closure.declaration ∧ D.place count closure.scope
  | _ => True

variable {D}

theorem knows_mono {count later : Nat} (le : count ≤ later) {value : Value}
    (known : D.Knows count value) : D.Knows later value := by
  unfold Knows at known ⊢
  split
  · exact ⟨known.1, D.place_mono le known.2⟩
  · trivial

theorem knows_plain {count : Nat} {value : Value}
    (plain : ∀ closure, value ≠ .callable (.function closure)) : D.Knows count value := by
  unfold Knows
  split
  · exact absurd rfl (plain _)
  · trivial

variable (D)

/-- The scopes of the discipline lead only to scopes and to values of the discipline.  The scope
around another one was there before it. -/
structure Sound (scopes : Scopes) : Prop where
  base_le : D.base ≤ scopes.nextId
  enclosing : ∀ (id : ScopeId) (scope : Scope) (outer : ScopeId), D.place scopes.nextId id →
    scopes.cells[id]? = some scope → scope.enclosing = some outer → D.place id outer
  bound : ∀ (id : ScopeId) (scope : Scope) (name : String) (value : Value),
    D.place scopes.nextId id →
    scopes.cells[id]? = some scope → scope.bindings.get? name = some value →
    D.Knows scopes.nextId value

/-- The store goes on from an earlier one, and scopes outside the discipline are as they were. -/
structure Grows (before after : Scopes) : Prop where
  extend : before.Extends after
  apart : ∀ id, id < before.nextId → ¬ D.place before.nextId id →
    after.cells[id]? = before.cells[id]?

structure Holds (machine : Machine) : Prop where
  sound : D.Sound machine.scopes
  current : D.place machine.scopes.nextId machine.current

variable {D}

/-! ## Changes of the store -/

section Store

variable {scopes : Scopes}

theorem Sound.outwards (sound : D.Sound scopes) (id : ScopeId) (scope : Scope) (outer : ScopeId)
    (place : D.place scopes.nextId id) (found : scopes.cells[id]? = some scope)
    (link : scope.enclosing = some outer) : D.place scopes.nextId outer :=
  D.place_mono (Nat.le_of_lt (Scopes.lt_nextId_of_some found))
    (sound.enclosing id scope outer place found link)

theorem Sound.define (sound : D.Sound scopes) {id : ScopeId} (name : String) {value : Value}
    (known : D.Knows scopes.nextId value) : D.Sound (scopes.define id name value) where
  base_le := by
    rw [Scopes.nextId_define]
    exact sound.base_le
  enclosing other scope outer place found link := by
    rw [Scopes.nextId_define] at place
    rcases Scopes.of_getElem?_define found with old | ⟨-, old, foundOld, rfl⟩
    · exact sound.enclosing other scope outer place old link
    · exact sound.enclosing other old outer place foundOld link
  bound other scope bound found place foundScope binds := by
    rw [Scopes.nextId_define] at place ⊢
    rcases Scopes.of_getElem?_define foundScope with old | ⟨-, old, foundOld, rfl⟩
    · exact sound.bound other scope bound found place old binds
    · rcases Bindings.of_get?_insert binds with rfl | earlier
      · exact known
      · exact sound.bound other old bound found place foundOld earlier

theorem Sound.push (sound : D.Sound scopes) {enclosing : ScopeId} {bindings : Bindings}
    (place : D.place scopes.nextId enclosing)
    (known : ∀ name value, bindings.get? name = some value → D.Knows scopes.nextId value) :
    D.Sound (scopes.push enclosing bindings) where
  base_le := by
    rw [Scopes.nextId_push]
    exact Nat.le_succ_of_le sound.base_le
  enclosing id scope outer placed found link := by
    rw [Scopes.nextId_push] at placed
    rcases Scopes.of_getElem?_push found with old | ⟨rfl, rfl⟩
    · have existing := Scopes.lt_nextId_of_some old
      exact sound.enclosing id scope outer (D.place_of_lt existing (Nat.le_succ _) placed) old link
    · rw [Option.some.injEq] at link
      rw [← link]
      exact place
  bound id scope name value placed found binds := by
    rw [Scopes.nextId_push] at placed ⊢
    apply knows_mono (Nat.le_succ _)
    rcases Scopes.of_getElem?_push found with old | ⟨rfl, rfl⟩
    · have existing := Scopes.lt_nextId_of_some old
      exact sound.bound id scope name value
        (D.place_of_lt existing (Nat.le_succ _) placed) old binds
    · exact known name value binds

namespace Grows

theorem refl (scopes : Scopes) : D.Grows scopes scopes := ⟨.refl scopes, fun _ _ _ => rfl⟩

theorem count_le {before after : Scopes} (grow : D.Grows before after) :
    before.nextId ≤ after.nextId :=
  grow.extend.nextId_le

theorem trans {before middle after : Scopes} (first : D.Grows before middle)
    (second : D.Grows middle after) : D.Grows before after where
  extend := first.extend.trans second.extend
  apart id existing outside := by
    have outsideStill : ¬ D.place middle.nextId id := fun place =>
      outside (D.place_of_lt existing first.count_le place)
    rw [second.apart id (Nat.lt_of_lt_of_le existing first.count_le) outsideStill]
    exact first.apart id existing outside

theorem define {id : ScopeId} (place : D.place scopes.nextId id) (name : String) (value : Value) :
    D.Grows scopes (scopes.define id name value) where
  extend := .define scopes id name value
  apart other _ outside := by
    apply Scopes.getElem?_define_ne
    intro same
    subst same
    exact outside place

theorem push (scopes : Scopes) (enclosing : ScopeId) (bindings : Bindings) :
    D.Grows scopes (scopes.push enclosing bindings) where
  extend := .push scopes enclosing bindings
  apart _ existing _ := Scopes.getElem?_push_of_lt enclosing bindings existing

end Grows

end Store

/-! ## What acts keep -/

/-- A run that started on a machine ended within the discipline, with such a value if it has one. -/
def Meets {α : Type} (D : Discipline) (machine : Machine) (Good : Nat → α → Prop) :
    EStateM.Result Halt Machine α → Prop
  | .ok value after =>
    D.Holds after ∧ D.Grows machine.scopes after.scopes ∧ Good after.scopes.nextId value
  | .error _ after => D.Holds after ∧ D.Grows machine.scopes after.scopes

variable (D)

/-- The discipline allows an act. -/
def Permits {α : Type} (count : Nat) : Act α → Prop
  | .assign _ value | .define _ value | .callee _ value => D.Knows count value
  | .declare name params body => D.code (.function name params body)
  | _ => True

/-- What is known of the value that an act gives. -/
def Yields (count : Nat) : {α : Type} → Act α → α → Prop
  | _, .lookup _, value | _, .declare _ _ _, value | _, .unary _ _ _, value
  | _, .binary _ _ _ _, value
  | _, .native _ _ _, value => D.Knows count value
  | _, .callee _ _, callable => D.Knows count (.callable callable)
  | _, .assign _ _, _ | _, .define _ _, _ | _, .arity _ _ _, _ | _, .print _, _
  | _, .fail _ _, _ => True

end Discipline

/-- A halt that only a signal brings about which nothing has taken. -/
def Halt.IsStray : Halt → Prop
  | .failure (.runtime _ .breakOutsideLoop) | .failure (.runtime _ .returnOutsideFunction) => True
  | _ => False

/-- A computation gives a value that is no declared function, or halts, but not for a stray signal.
It does nothing to the scopes. -/
inductive Quiet (machine : Machine) : EStateM.Result Halt Machine Value → Prop
  | ok {value after} : (∀ closure, value ≠ .callable (.function closure)) →
    after.scopes = machine.scopes →
      after.current = machine.current → Quiet machine (.ok value after)
  | error {halt after} : ¬ halt.IsStray → after.scopes = machine.scopes →
    after.current = machine.current →
      Quiet machine (.error halt after)

namespace Quiet

theorem scopes_eq {machine : Machine} {result : EStateM.Result Halt Machine Value}
    (quiet : Quiet machine result) : (machineAfter result).scopes = machine.scopes := by
  cases quiet with
  | ok _ scopes _ => exact scopes
  | error _ scopes _ => exact scopes

variable (machine : Machine)

theorem fail {line : Nat} {fault : RuntimeFault}
    (proper : ¬ (Halt.failure (.runtime line fault)).IsStray) :
    Quiet machine (Eval.fail line fault machine) := .error proper rfl rfl

theorem unary (op : UnaryOp) (line : Nat) (operand : Value) :
    Quiet machine (applyUnary op line operand machine) := by
  unfold applyUnary
  split
  · exact .ok (fun _ => by simp) rfl rfl
  · exact .fail machine id
  · exact .ok (fun _ => by simp) rfl rfl

theorem onNumbers (line : Nat) (left right : Value) {combine : Float → Float → Value}
    (plain : ∀ x y closure, combine x y ≠ .callable (.function closure)) :
    Quiet machine (Eval.onNumbers line left right combine machine) := by
  unfold Eval.onNumbers
  split
  · exact .ok (plain _ _) rfl rfl
  · exact .fail machine id

theorem binary (op : BinaryOp) (line : Nat) (left right : Value) :
    Quiet machine (applyBinary op line left right machine) := by
  cases op with
  | add =>
    unfold applyBinary add
    split
    · exact .ok (fun _ => by simp) rfl rfl
    · exact .ok (fun _ => by simp) rfl rfl
    · exact .fail machine id
  | divide =>
    unfold applyBinary divide
    split
    · split
      · exact .fail machine id
      · exact .ok (fun _ => by simp) rfl rfl
    · exact .fail machine id
  | equal => exact .ok (fun _ => by simp) rfl rfl
  | notEqual => exact .ok (fun _ => by simp) rfl rfl
  | _ => exact onNumbers machine line left right fun _ _ _ => by simp

theorem native (primitive : Native) (line : Nat) (arguments : List Value) :
    Quiet machine (primitive.invoke line arguments machine) := by
  cases primitive with
  | clock =>
    change Quiet machine (Native.readClock line machine)
    unfold Native.readClock
    rcases machine.clock.read with ⟨time, clock⟩
    cases time with
    | ok time => exact .ok (fun _ => by simp) rfl rfl
    | error error => exact .error id rfl rfl
  | input =>
    change Quiet machine (Native.readLine line machine)
    unfold Native.readLine
    rcases machine.source.read with ⟨reading, source⟩
    cases reading with
    | line text => exact .ok (fun _ => by simp) rfl rfl
    | ended => exact .ok (fun _ => by simp) rfl rfl
    | failed error => exact .error id rfl rfl
    | pending => exact .error id rfl rfl
  | number =>
    unfold Native.invoke Native.toNumber
    split
    · exact .ok (fun _ => by simp) rfl rfl
    · split
      · exact .ok (fun _ => by simp) rfl rfl
      · exact .fail machine id
    · exact .fail machine id

end Quiet

namespace Discipline

variable {D : Discipline} {machine : Machine}

theorem Holds.congr {other : Machine} (holds : D.Holds machine)
    (scopes : other.scopes = machine.scopes) (current : other.current = machine.current) :
    D.Holds other where
  sound := by
    rw [scopes]
    exact holds.sound
  current := by
    rw [scopes, current]
    exact holds.current

theorem Holds.define (holds : D.Holds machine) {id : ScopeId} (name : String) {value : Value}
    (known : D.Knows machine.scopes.nextId value) :
    D.Holds { machine with scopes := machine.scopes.define id name value } where
  sound := holds.sound.define name known
  current := by
    rw [Scopes.nextId_define]
    exact holds.current

theorem Meets.of_quiet (holds : D.Holds machine) {result : EStateM.Result Halt Machine Value}
    (quiet : Quiet machine result) : D.Meets machine D.Knows result := by
  cases quiet with
  | @ok value after plain scopes current =>
    refine ⟨holds.congr scopes current, ?_, knows_plain plain⟩
    rw [scopes]
    exact .refl _
  | error _ scopes current =>
    refine ⟨holds.congr scopes current, ?_⟩
    rw [scopes]
    exact .refl _

theorem Meets.fail {α : Type} (holds : D.Holds machine) (line : Nat) (fault : RuntimeFault)
    (Good : Nat → α → Prop) : D.Meets machine Good (Eval.fail line fault machine) :=
  ⟨holds, .refl _⟩

end Discipline

namespace Act

open Discipline

variable {D : Discipline} {machine : Machine}

theorem lookup_meets (holds : D.Holds machine) (name : Lexeme) :
    D.Meets machine D.Knows (Eval.lookup name machine) := by
  unfold Eval.lookup
  cases found : machine.scopes.get? machine.current name.text with
  | none => exact .fail holds ..
  | some value =>
    rcases Scopes.of_get? holds.sound.outwards holds.current found with
      ⟨target, scope, place, foundScope, bound⟩
    exact ⟨holds, .refl _, holds.sound.bound target scope name.text value place foundScope bound⟩

theorem assign_meets (holds : D.Holds machine) (name : Lexeme) {value : Value}
    (known : D.Knows machine.scopes.nextId value) :
    D.Meets machine (fun _ _ => True) (Eval.assign name value machine) := by
  unfold Eval.assign Scopes.assign?
  cases resolved : machine.scopes.resolve? machine.current name.text with
  | none => exact .fail holds ..
  | some target =>
    have place := (Scopes.of_resolveWithin holds.sound.outwards holds.current resolved).1
    exact ⟨holds.define name.text known, .define place name.text value, trivial⟩

theorem declare_meets (holds : D.Holds machine) (name : Lexeme) (params : List Lexeme)
    {body : List Stmt} (code : D.code (.function name params body)) :
    D.Meets machine D.Knows (Eval.declare name params body machine) :=
  ⟨holds.congr rfl rfl, .refl _, code, holds.current⟩

theorem callee_meets (holds : D.Holds machine) (line : Nat) {value : Value}
    (known : D.Knows machine.scopes.nextId value) :
    D.Meets machine (fun count callable => D.Knows count (.callable callable))
      (asCallable line value machine) := by
  unfold asCallable
  split
  · exact ⟨holds, .refl _, known⟩
  · exact .fail holds ..

theorem arity_meets (holds : D.Holds machine) (line : Nat) (callable : Callable)
    (arguments : List Value) :
    D.Meets machine (fun _ _ => True) (checkArity line callable arguments machine) := by
  unfold checkArity
  split
  · exact ⟨holds, .refl _, trivial⟩
  · exact .fail holds ..

theorem print_meets (holds : D.Holds machine) (text : String) :
    D.Meets machine (fun _ _ => True) (Eval.print text machine) := by
  unfold Eval.print
  split
  · exact ⟨holds.congr rfl rfl, .refl _, trivial⟩
  · exact ⟨holds.congr rfl rfl, .refl _⟩

/-- An act that the discipline allows keeps to it. -/
theorem meets {α : Type} (action : Act α) (holds : D.Holds machine)
    (permitted : D.Permits machine.scopes.nextId action) :
    D.Meets machine (fun count value => D.Yields count action value) (action.perform machine) := by
  cases action with
  | lookup name => exact lookup_meets holds name
  | assign name value => exact assign_meets holds name permitted
  | define name value =>
    exact ⟨holds.define name.text permitted, .define holds.current name.text value, trivial⟩
  | declare name params body => exact declare_meets holds name params permitted
  | unary op line operand => exact .of_quiet holds (.unary machine op line operand)
  | binary op line left right => exact .of_quiet holds (.binary machine op line left right)
  | callee line value => exact callee_meets holds line permitted
  | arity line callable arguments => exact arity_meets holds line callable arguments
  | native primitive line arguments =>
    exact .of_quiet holds (.native machine primitive line arguments)
  | print text => exact print_meets holds text
  | fail line fault => exact .fail holds ..

end Act

/-! ## What the starting of tasks keeps -/

namespace Entry

variable {D : Discipline} {machine inner after : Machine}

/-- The discipline allows a task to be started so. -/
def Granted (D : Discipline) (count : Nat) : Entry → Prop
  | .frame enclosing bindings =>
    D.place count enclosing ∧ ∀ name value, bindings.get? name = some value → D.Knows count value
  | _ => True

/-- A new scope in a scope of the discipline, whichever scope the machine was in. -/
theorem inScope_holds (sound : D.Sound machine.scopes) {enclosing : ScopeId} {bindings : Bindings}
    (place : D.place machine.scopes.nextId enclosing)
    (known : ∀ name value, bindings.get? name = some value → D.Knows machine.scopes.nextId value) :
    D.Holds (machine.inScope enclosing bindings) where
  sound := sound.push place known
  current := by
    change D.place (machine.scopes.push enclosing bindings).nextId machine.scopes.nextId
    rw [Scopes.nextId_push]
    exact D.place_new sound.base_le

theorem enter_holds {entry : Entry} (holds : D.Holds machine)
    (granted : entry.Granted D machine.scopes.nextId) (entered : entry.enter machine = .ok inner) :
    D.Holds inner ∧ D.Grows machine.scopes inner.scopes := by
  cases entry with
  | plain =>
    cases entered
    exact ⟨holds, .refl _⟩
  | block =>
    cases entered
    refine ⟨inScope_holds holds.sound holds.current ?_, .push _ _ _⟩
    intro name value bound
    cases bound
  | frame enclosing bindings =>
    cases entered
    exact ⟨inScope_holds holds.sound granted.1 granted.2, .push _ _ _⟩
  | call line =>
    rw [enter] at entered
    split at entered
    · cases entered
    · cases entered
      exact ⟨holds.congr rfl rfl, .refl _⟩

theorem leave_scopes (entry : Entry) : (entry.leave machine after).scopes = after.scopes := by
  cases entry <;> rfl

theorem leave_holds (entry : Entry) (holds : D.Holds machine) (holdsAfter : D.Holds after)
    (grow : D.Grows machine.scopes after.scopes) : D.Holds (entry.leave machine after) := by
  have current := D.place_mono grow.count_le holds.current
  cases entry with
  | plain => exact holdsAfter
  | block => exact ⟨holdsAfter.sound, current⟩
  | frame enclosing bindings => exact ⟨holdsAfter.sound, current⟩
  | call line => exact holdsAfter.congr rfl rfl

end Entry

end Lox
