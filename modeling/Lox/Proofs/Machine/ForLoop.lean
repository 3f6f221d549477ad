import Lox.Proofs.Grammar.Salvage
import Lox.Proofs.Machine.EmptyScope
import Lox.Proofs.Machine.Placement
import Lox.Proofs.Machine.ScopeChains

/-!
# What a `for` loop means

A `for` statement is parsed into a block around a `while` loop.  In this tree the increment stands
in a block with the body, so that it is evaluated one scope further in than the condition.  That
scope is empty whenever the body completes, since the body is no declaration, and so the tree means
what one expects of a `for` loop.

* `ForParts.run`: the loop itself, with the increment in the scope of the loop.
* `repeated`, `Rounds`: loops as rounds, one after the other.
* `sameEnds_iteration`: a round of the tree is a round of the loop.
-/

namespace Lox

open Plan Eval Grammar

/-! ## The loop -/

/-- Runs round after round, until one of them tells how the loop ends. -/
def repeated (round : Nat → Eval (Option Signal)) : Nat → Eval Signal
  | 0 => throw .suspended
  | fuel + 1 => do
    match ← round fuel with
    | none => repeated round fuel
    | some signal => return signal

namespace ForParts

/-- Runs the initializer, if there is one. -/
def prepare (parts : ForParts) (fuel : Nat) : Eval Unit :=
  match parts.initializer with
  | some initializer => do
    let _ ← execute fuel initializer
  | none => return ()

/-- The loop goes on: its condition holds, or it has none. -/
def goesOn (parts : ForParts) (fuel : Nat) : Eval Bool :=
  match parts.condition with
  | some condition => return (← evaluate fuel condition).isTruthy
  | none => return true

/-- A round of the loop, in the scope of the loop: how the loop ends with it, if it does.  The body
runs in a scope of its own.  Only if it completes, the increment is evaluated. -/
def round (parts : ForParts) (fuel : Nat) : Eval (Option Signal) := do
  if ← parts.goesOn fuel then
    match ← withScope (← get).current [] (execute fuel parts.body) with
    | .completed =>
      let _ ← evaluateOption fuel parts.increment
      return none
    | .broke _ => return some .completed
    | signal => return some signal
  else return some .completed

/-- Runs the loop in a new scope. -/
def run (parts : ForParts) (fuel : Nat) : Eval Signal := do
  withScope (← get).current [] do
    parts.prepare fuel
    repeated parts.round fuel

end ForParts

/-! ## Rounds -/

section Rounds

variable {round other : Nat → Eval (Option Signal)} {machine : Machine}
    {result : EStateM.Result Halt Machine Signal}

/-- Rounds, one after the other, end in a certain way. -/
inductive Rounds (round : Nat → Eval (Option Signal)) :
    Machine → EStateM.Result Halt Machine Signal → Prop
  | ends {machine signal after} : Settles round machine (.ok (some signal) after) →
      Rounds round machine (.ok signal after)
  | halts {machine halt after} : Settles round machine (.error halt after) →
    Rounds round machine (.error halt after)
  | again {machine middle result} : Settles round machine (.ok none middle) →
    Rounds round middle result →
      Rounds round machine result

theorem Lasting.repeated (lasting : Lasting round) : Lasting (repeated round) := by
  intro fuel more le
  induction fuel generalizing more with
  | zero =>
    intro machine ended
    exact absurd rfl (ended machine)
  | succ fuel ih =>
    cases more with
    | zero => exact absurd le (Nat.not_succ_le_zero fuel)
    | succ more =>
      refine (lasting (Nat.le_of_succ_le_succ le)).bind fun ending => ?_
      cases ending with
      | none => exact ih (Nat.le_of_succ_le_succ le)
      | some signal => exact .refl _

theorem settles_repeated_iff (lasting : Lasting round) :
    Settles (repeated round) machine result ↔ Rounds round machine result := by
  constructor
  · rintro ⟨ended, fuel, same⟩
    induction fuel generalizing machine with
    | zero => exact absurd same.symm (ended machine)
    | succ fuel ih =>
      rw [repeated] at same
      cases ran : round fuel machine with
      | ok ending middle =>
        rw [bind_of_ok ran] at same
        cases ending with
        | none => exact .again ⟨ended_ok _ _, fuel, ran⟩ (ih same)
        | some signal =>
          cases same
          exact .ends ⟨ended_ok _ _, fuel, ran⟩
      | error halt middle =>
        rw [bind_of_error ran] at same
        cases same
        exact .halts ⟨ended.halt, fuel, ran⟩
  · intro rounds
    induction rounds with
    | ends settles =>
      rcases settles with ⟨-, fuel, ran⟩
      refine ⟨ended_ok _ _, fuel + 1, ?_⟩
      rw [repeated, bind_of_ok ran]
      rfl
    | halts settles =>
      rcases settles with ⟨ended, fuel, ran⟩
      refine ⟨ended.halt, fuel + 1, ?_⟩
      rw [repeated, bind_of_error ran]
    | @again machine middle result settles _ ih =>
      rcases settles with ⟨endedFirst, fuel, ran⟩
      rcases ih with ⟨ended, more, same⟩
      refine ⟨ended, max fuel more + 1, ?_⟩
      have first := (lasting (Nat.le_max_left fuel more)).eq ran endedFirst
      rw [repeated, bind_of_ok first]
      exact (lasting.repeated (Nat.le_max_right fuel more)).eq same ended

theorem Rounds.imp {Fine : Machine → Prop}
    (same : ∀ machine, Fine machine → SameEnds machine round other)
    (keeps : ∀ machine middle, Fine machine → Settles round machine (.ok none middle) → Fine middle)
    (rounds : Rounds round machine result) (fine : Fine machine) : Rounds other machine result := by
  induction rounds with
  | ends settles => exact .ends ((same _ fine _).1 settles)
  | halts settles => exact .halts ((same _ fine _).1 settles)
  | again settles _ ih => exact .again ((same _ fine _).1 settles) (ih (keeps _ _ fine settles))

/-- Loops end in the same ways if their rounds do, on the machines that the rounds lead to. -/
theorem SameEnds.repeated {Fine : Machine → Prop} (lasting : Lasting round)
    (lastingOther : Lasting other) (same : ∀ machine, Fine machine → SameEnds machine round other)
    (keeps : ∀ machine middle, Fine machine → Settles round machine (.ok none middle) → Fine middle)
    (fine : Fine machine) : SameEnds machine (repeated round) (repeated other) := by
  intro result
  rw [settles_repeated_iff lasting, settles_repeated_iff lastingOther]
  constructor
  · intro rounds
    exact rounds.imp same keeps fine
  · intro rounds
    refine rounds.imp (fun machine fine => (same machine fine).symm) ?_ fine
    intro machine middle fine settles
    exact keeps machine middle fine ((same machine fine _).2 settles)

end Rounds

/-! ## Rounds of a `while` loop -/

/-- How a loop ends when its body has ended with a signal, if it does. -/
def Signal.ending : Signal → Option Signal
  | .completed => none
  | .broke _ => some .completed
  | .returned keyword value => some (.returned keyword value)

/-- A round of a loop: a test, and the body if it is passed. -/
def loopRound (test : Nat → Eval Bool) (body : Nat → Eval Signal) (fuel : Nat) :
    Eval (Option Signal) := do
  if ← test fuel then return (← body fuel).ending else return some .completed

/-- The condition of a loop holds. -/
def passes (condition : Expr) (fuel : Nat) : Eval Bool := do
  return (← evaluate fuel condition).isTruthy

theorem loop_eq_repeated (condition : Expr) (body : Stmt) (fuel : Nat) :
    loop fuel condition body =
      repeated (loopRound (passes condition) fun fuel => execute fuel body) fuel := by
  induction fuel with
  | zero => rfl
  | succ fuel ih =>
    simp only [loop, repeated, loopRound, passes, bind_assoc, pure_bind]
    congr 1
    funext value
    split
    · rw [bind_assoc]
      congr 1
      funext signal
      cases signal with
      | completed => exact ih
      | broke keyword => rfl
      | returned keyword value => rfl
    · rfl

section LoopRound

variable {test other : Nat → Eval Bool} {body another : Nat → Eval Signal}

/-- What follows the test of a round. -/
theorem lasting_afterTest (bodies : Lasting body) (passed : Bool) : Lasting fun fuel =>
    if passed then (do return (← body fuel).ending)
      else (return some .completed : Eval (Option Signal)) :=
  (bodies.bind fun _ => .const _).ite (.const _) passed

theorem Lasting.loopRound (tests : Lasting test) (bodies : Lasting body) :
    Lasting (loopRound test body) :=
  tests.bind (lasting_afterTest bodies)

theorem SameEnds.loopRound {machine : Machine} (tests : Lasting test) (bodies : Lasting body)
    (others : Lasting other) (anothers : Lasting another) (first : SameEnds machine test other)
    (rest : ∀ passed middle, Settles test machine (.ok passed middle) →
      SameEnds middle body another) :
    SameEnds machine (loopRound test body) (loopRound other another) := by
  refine first.bind tests others (lasting_afterTest bodies) (lasting_afterTest anothers) ?_
  intro passed middle settles
  cases passed with
  | true =>
    exact (rest true middle settles).andThen bodies anothers fun signal => pure signal.ending
  | false => exact .refl _

end LoopRound

/-! ## How statements end -/

section Statements

variable (machine : Machine)

theorem lasting_evaluate (expression : Expr) : Lasting fun fuel => evaluate fuel expression :=
  (Task.evaluate expression).lasting

theorem lasting_evaluateOption (expression : Option Expr) :
    Lasting fun fuel => evaluateOption fuel expression :=
  (Task.evaluateOption expression).lasting

theorem lasting_execute (statement : Stmt) : Lasting fun fuel => execute fuel statement :=
  (Task.execute statement).lasting

theorem lasting_executeAll (statements : List Stmt) :
    Lasting fun fuel => executeAll fuel statements :=
  (Task.executeAll statements).lasting

theorem sameEnds_block (statements : List Stmt) :
    SameEnds machine (fun fuel => execute fuel (.block statements))
      fun fuel => Entry.block.around (executeAll fuel statements) := by
  refine .of_succ rfl fun fuel => ?_
  rw [execute, Entry.around_block]

theorem sameEnds_while (condition : Expr) (body : Stmt) :
    SameEnds machine (fun fuel => execute fuel (.while condition body)) fun fuel =>
    loop fuel condition body :=
  .of_succ rfl fun _ => rfl

theorem sameEnds_expression (operand : Expr) :
    SameEnds machine (fun fuel => execute fuel (.expression operand))
      fun fuel => do
        let _ ← evaluate fuel operand
        return .completed :=
  .of_succ rfl fun _ => rfl

theorem sameEnds_present (operand : Expr) :
    SameEnds machine (fun fuel => evaluateOption fuel (some operand)) fun fuel =>
    evaluate fuel operand :=
  .of_succ rfl fun _ => rfl

theorem sameEnds_absent :
    SameEnds machine (fun fuel => evaluateOption fuel none) fun _ => return .nil :=
  .of_succ rfl fun _ => rfl

theorem sameEnds_literal (value : Literal) :
    SameEnds machine (fun fuel => evaluate fuel (.literal value)) fun _ =>
    return .ofLiteral value :=
  .of_succ rfl fun _ => rfl

theorem sameEnds_nil :
    SameEnds machine (fun fuel => executeAll fuel []) fun _ => return .completed :=
  .of_succ rfl fun _ => rfl

/-- Goes on with the next run if a statement completed. -/
def ifCompleted (next : Eval Signal) : Signal → Eval Signal
  | .completed => next
  | signal => return signal

theorem Lasting.ifCompleted {next : Nat → Eval Signal} (lasting : Lasting next) (signal : Signal) :
    Lasting fun fuel => ifCompleted (next fuel) signal := by
  cases signal with
  | completed => exact lasting
  | broke keyword => exact .const _
  | returned keyword value => exact .const _

theorem sameEnds_cons (statement : Stmt) (rest : List Stmt) :
    SameEnds machine (fun fuel => executeAll fuel (statement :: rest))
      fun fuel => execute fuel statement >>= ifCompleted (executeAll fuel rest) := by
  refine .of_succ rfl fun fuel => ?_
  rw [executeAll]
  rfl

/-- What follows a statement can be replaced by what ends in the same ways. -/
theorem SameEnds.ifCompleted {machine : Machine} {statement : Stmt} {next other : Nat → Eval Signal}
    (lasting : Lasting next) (lastingOther : Lasting other)
    (same : ∀ middle, Settles (fun fuel => execute fuel statement) machine (.ok .completed middle) →
      SameEnds middle next other) :
    SameEnds machine (fun fuel => execute fuel statement >>= ifCompleted (next fuel))
      fun fuel => execute fuel statement >>= ifCompleted (other fuel) := by
  refine SameEnds.bind (lasting_execute statement) (lasting_execute statement) lasting.ifCompleted
    lastingOther.ifCompleted (.refl _) ?_
  intro signal middle settles
  cases signal with
  | completed => exact same middle settles
  | broke keyword => exact .refl _
  | returned keyword value => exact .refl _

theorem sameEnds_singleton (statement : Stmt) :
    SameEnds machine (fun fuel => executeAll fuel [statement]) fun fuel =>
    execute fuel statement := by
  refine (sameEnds_cons machine statement []).trans ?_
  refine (SameEnds.ifCompleted (lasting_executeAll []) (.const _) fun middle _ =>
    sameEnds_nil middle).trans ?_
  refine .of_eq fun fuel => ?_
  have same : ifCompleted (return .completed) = (pure : Signal → Eval Signal) := by
    funext signal
    cases signal <;> rfl
  rw [same, bind_pure]

end Statements

/-! ## The scope of the body -/

/-- The run leads from fine machines to fine ones. -/
def Preserves {α : Type} (Fine : Machine → Prop) (run : Eval α) : Prop :=
  ∀ machine value after, Fine machine → run machine = .ok value after → Fine after

theorem Preserves.bind {α β : Type} {Fine : Machine → Prop} {run : Eval α} {next : α → Eval β}
    (first : Preserves Fine run) (rest : ∀ value, Preserves Fine (next value)) :
    Preserves Fine (run >>= next) := by
  intro machine value after fine ran
  cases ranFirst : run machine with
  | ok between middle =>
    rw [bind_of_ok ranFirst] at ran
    exact rest between middle value after (first machine between middle fine ranFirst) ran
  | error halt middle =>
    rw [bind_of_error ranFirst] at ran
    cases ran

theorem Preserves.pure {α : Type} {Fine : Machine → Prop} (value : α) :
    Preserves Fine (Pure.pure value) := by
  intro machine same after fine ran
  cases ran
  exact fine

theorem Settles.preserved {α : Type} {Fine : Machine → Prop} {family : Nat → Eval α}
    {machine after : Machine} {value : α} (settles : Settles family machine (.ok value after))
    (preserves : ∀ fuel, Preserves Fine (family fuel)) (fine : Fine machine) : Fine after := by
  rcases settles with ⟨-, fuel, ran⟩
  exact preserves fuel machine value after fine ran

theorem preserves_evaluate (expression : Expr) (fuel : Nat) :
    Preserves existingScopes.Holds (evaluate fuel expression) := by
  intro machine value after holds ran
  have last := (Task.governed fuel (.evaluate expression) machine holds trivial).holds
  rw [Task.run, ran] at last
  exact last

theorem preserves_execute (statement : Stmt) (fuel : Nat) :
    Preserves existingScopes.Holds (execute fuel statement) := by
  intro machine value after holds ran
  have last := (Task.governed fuel (.execute statement) machine holds trivial).holds
  rw [Task.run, ran] at last
  exact last

theorem preserves_passes (condition : Expr) (fuel : Nat) :
    Preserves existingScopes.Holds (passes condition fuel) :=
  (preserves_evaluate condition fuel).bind fun _ => .pure _

theorem preserves_loopRound (condition : Expr) (body : Stmt) (fuel : Nat) :
    Preserves existingScopes.Holds
      (loopRound (passes condition) (fun fuel => execute fuel body) fuel) := by
  refine (preserves_passes condition fuel).bind fun passed => ?_
  cases passed with
  | true => exact (preserves_execute body fuel).bind fun _ => .pure _
  | false => exact .pure _

theorem Stmt.Written.not_declares {tokens : List Token} {statement : Stmt}
    (written : statement.Written tokens .branch) : ¬ statement.Declares := by
  intro declares
  induction declares with
  | var => cases written
  | function => cases written
  | branch mem _ ih =>
    cases written with
    | «if» _ thenBranch elseBranch =>
      rcases List.mem_cons.1 mem with rfl | mem
      · exact ih thenBranch
      · exact ih (elseBranch _ (Option.mem_toList.1 mem))
  | «while» _ ih =>
    cases written with
    | «while» _ body => exact ih body

/-- What follows the body of the loop in a round. -/
def ForParts.advance (parts : ForParts) : Plan Signal := do
  let _ ← valueOfOption parts.increment
  return .completed

theorem ForParts.follow_advance (parts : ForParts) (fuel : Nat) :
    parts.advance.follow (Task.run fuel) = (do
      let _ ← evaluateOption fuel parts.increment
      return .completed) := by
  simp [advance]

/-- A body that declares nothing leaves its scope empty. -/
theorem Stmt.idle_of_execute {body : Stmt} (quiet : ¬ body.Declares) {fuel : Nat}
    {machine after : Machine} {signal : Signal} (holds : existingScopes.Holds machine)
    (ran : execute fuel body (machine.inScope machine.current []) = .ok signal after) :
    Scopes.Idle machine.scopes.nextId machine.current after.scopes ∧
    after.current = machine.scopes.nextId := by
  have names := Task.run_keepsNames fuel (.execute body) (machine.inScope machine.current [])
  have control := Task.run_sameControl fuel (.execute body) (machine.inScope machine.current [])
  rw [Task.run, ran, machineAfter] at names control
  have descends : ∀ (id : ScopeId) (scope : Scope) (next : ScopeId),
      machine.scopes.cells[id]? = some scope →
      scope.enclosing = some next → next < id := fun id scope next found link =>
    holds.sound.enclosing id scope next (Scopes.lt_nextId_of_some found) found link
  have idle := Scopes.idle_inScope holds.current descends
  exact ⟨idle.keep (names.mono fun _ _ out => quiet out.1), control.current⟩

/-- The scope of the body can be left before the increment is evaluated. -/
theorem around_block_ifCompleted (parts : ForParts) (quiet : ¬ parts.body.Declares) (fuel : Nat)
    {machine : Machine} (holds : existingScopes.Holds machine) :
    Entry.block.around
      (execute fuel parts.body >>= ifCompleted (parts.advance.follow (Task.run fuel))) machine =
      (Entry.block.around (execute fuel parts.body) >>=
        ifCompleted (parts.advance.follow (Task.run fuel))) machine := by
  have entered : Entry.block.enter machine = .ok (machine.inScope machine.current []) := rfl
  cases ran : execute fuel parts.body (machine.inScope machine.current []) with
  | error halt after =>
    rw [bind_of_error (Entry.around_of_error entered ran)]
    exact Entry.around_of_error entered (bind_of_error ran)
  | ok signal after =>
    rw [bind_of_ok (Entry.around_of_ok entered ran)]
    simp only [Entry.around, entered, bind_of_ok ran]
    cases signal with
    | broke keyword => rfl
    | returned keyword value => rfl
    | completed =>
      rcases Stmt.idle_of_execute quiet holds ran with ⟨idle, here⟩
      have only : parts.advance.StartsOnly False fun entry task => task.Unmoved entry :=
        (startsOnly_start trivial).bind fun _ => trivial
      have left := follow_leftIn fuel only idle here
      change _ = parts.advance.follow (Task.run fuel) (after.movedTo machine.current)
      rw [← left, ifCompleted]
      cases parts.advance.follow (Task.run fuel) after <;> rfl

/-! ## Rounds of the tree -/

namespace ForParts

variable (parts : ForParts)

/-- The statements of a round in the tree. -/
def statements : List Stmt := parts.body :: (parts.increment.map Stmt.expression).toList

/-- The body of the loop and what follows it. -/
def iteration (fuel : Nat) : Eval Signal :=
  Entry.block.around (execute fuel parts.body) >>=
    ifCompleted (parts.advance.follow (Task.run fuel))

theorem sameEnds_increment (machine : Machine) :
    SameEnds machine (fun fuel => executeAll fuel (parts.increment.map Stmt.expression).toList)
      fun fuel => parts.advance.follow (Task.run fuel) := by
  simp only [follow_advance]
  cases parts.increment with
  | none =>
    have absent := (sameEnds_absent machine).andThen (lasting_evaluateOption none) (.const _)
      fun _ => pure Signal.completed
    exact (sameEnds_nil machine).trans absent.symm
  | some operand =>
    have present :=
      (sameEnds_present machine operand).andThen (lasting_evaluateOption (some operand))
      (lasting_evaluate operand) fun _ => pure Signal.completed
    exact ((sameEnds_singleton machine _).trans (sameEnds_expression machine operand)).trans
      present.symm

/-- A round of the tree runs the body in its scope and then evaluates the increment in the scope of
the loop. -/
theorem sameEnds_iteration (quiet : ¬ parts.body.Declares) {machine : Machine}
    (holds : existingScopes.Holds machine) :
    SameEnds machine (fun fuel => execute fuel (.block parts.statements)) parts.iteration := by
  have inside :
      SameEnds (machine.inScope machine.current []) (fun fuel => executeAll fuel parts.statements)
      fun fuel => execute fuel parts.body >>= ifCompleted (parts.advance.follow (Task.run fuel)) :=
    (sameEnds_cons _ parts.body _).trans
      (.ifCompleted (lasting_executeAll _) parts.advance.lasting fun middle _ =>
        parts.sameEnds_increment middle)
  refine (sameEnds_block machine parts.statements).trans ((inside.around rfl).trans ?_)
  exact .of_eq fun fuel => around_block_ifCompleted parts quiet fuel holds

/-- The condition that the tree has. -/
def test : Expr := parts.condition.getD (.literal (.bool true))

theorem lasting_passes (condition : Expr) : Lasting (passes condition) :=
  (lasting_evaluate condition).bind fun _ => .const _

theorem lasting_goesOn : Lasting parts.goesOn := by
  unfold goesOn
  cases parts.condition with
  | none => exact .const _
  | some condition => exact lasting_passes condition

theorem sameEnds_test (machine : Machine) : SameEnds machine (passes parts.test) parts.goesOn := by
  unfold goesOn test
  cases parts.condition with
  | none =>
    exact (sameEnds_literal machine (.bool true)).andThen (lasting_evaluate _) (.const _)
      fun value => pure value.isTruthy
  | some condition => exact .refl _

theorem lasting_iteration : Lasting parts.iteration :=
  ((lasting_execute parts.body).around .block).bind parts.advance.lasting.ifCompleted

theorem round_eq_loopRound : parts.round = loopRound parts.goesOn parts.iteration := by
  funext fuel
  simp only [round, loopRound, iteration, Entry.around_block, follow_advance, bind_assoc]
  congr 1
  funext passed
  split
  · congr 1
    funext machine
    congr 1
    funext signal
    cases signal with
    | completed => simp [ifCompleted, Signal.ending]
    | broke keyword => rfl
    | returned keyword value => rfl
  · rfl

theorem lasting_round : Lasting parts.round := by
  rw [round_eq_loopRound]
  exact parts.lasting_goesOn.loopRound parts.lasting_iteration

/-- A `while` loop of such rounds is the loop. -/
theorem sameEnds_loop (quiet : ¬ parts.body.Declares) {machine : Machine}
    (holds : existingScopes.Holds machine) :
    SameEnds machine (fun fuel => loop fuel parts.test (.block parts.statements))
      (repeated parts.round) := by
  have lasting := (lasting_passes parts.test).loopRound (lasting_execute (.block parts.statements))
  refine (SameEnds.of_eq fun fuel => by rw [loop_eq_repeated]).trans
    (.repeated lasting parts.lasting_round ?_ ?_ holds)
  · intro machine holds
    rw [round_eq_loopRound]
    refine .loopRound (lasting_passes _) (lasting_execute _) parts.lasting_goesOn
      parts.lasting_iteration
      (parts.sameEnds_test machine) ?_
    intro passed middle settles
    exact parts.sameEnds_iteration quiet (settles.preserved (preserves_passes parts.test) holds)
  · intro machine middle holds settles
    exact settles.preserved (preserves_loopRound parts.test (.block parts.statements)) holds

/-! ## The whole tree -/

theorem tree_eq : parts.tree =
    .block (parts.initializer.toList ++ [.while parts.test (.block parts.statements)]) := rfl

/-- The initializer completes if it ends. -/
theorem WrittenInitializer.completed {tokens : List Token} {initializer : Stmt}
    (written : WrittenInitializer tokens (some initializer)) {machine after : Machine}
    {signal : Signal}
    (settles : Settles (fun fuel => execute fuel initializer) machine (.ok signal after)) :
    signal = .completed := by
  have placed : initializer.Placed ⟨false, false⟩ := by
    cases written with
    | var => exact .var
    | expression => exact .expression
  rcases settles with ⟨-, fuel, ran⟩
  have proper := Task.run_proper fuel (.execute initializer) machine
  rw [Task.run, ran] at proper
  have taken := proper _ placed
  cases signal with
  | completed => rfl
  | broke keyword => cases taken
  | returned keyword value => cases taken

theorem sameEnds_statements {tokens : List Token} (written : parts.Written tokens)
    {machine : Machine} (holds : existingScopes.Holds machine) :
    SameEnds machine
      (fun fuel =>
        executeAll fuel (parts.initializer.toList ++ [.while parts.test (.block parts.statements)]))
      fun fuel => parts.prepare fuel >>= fun _ => repeated parts.round fuel := by
  have quiet := written.body.not_declares
  have loops : ∀ {machine}, existingScopes.Holds machine → SameEnds machine
      (fun fuel => executeAll fuel [.while parts.test (.block parts.statements)])
        (repeated parts.round) := fun holds =>
    ((sameEnds_singleton _ _).trans (sameEnds_while _ _ _)).trans (parts.sameEnds_loop quiet holds)
  have first := written.initializer
  unfold prepare
  cases present : parts.initializer with
  | none => exact loops holds
  | some initializer =>
    rw [present] at first
    refine (sameEnds_cons machine initializer _).trans ?_
    simp only [bind_assoc, pure_bind]
    refine SameEnds.bind (lasting_execute initializer) (lasting_execute initializer)
      (lasting_executeAll _).ifCompleted (fun _ => parts.lasting_round.repeated) (.refl _) ?_
    intro signal middle settles
    rw [first.completed settles]
    exact loops (settles.preserved (preserves_execute initializer) holds)

/-- The tree of a `for` statement ends in the same ways as the loop. -/
theorem sameEnds_tree {tokens : List Token} (written : parts.Written tokens) {machine : Machine}
    (holds : existingScopes.Holds machine) :
    SameEnds machine (fun fuel => execute fuel parts.tree) parts.run := by
  have entered : Entry.block.enter machine = .ok (machine.inScope machine.current []) := rfl
  have granted : Entry.block.Granted existingScopes machine.scopes.nextId := trivial
  have inner := (Entry.enter_holds holds granted entered).1
  rw [tree_eq]
  exact (sameEnds_block machine _).trans ((parts.sameEnds_statements written inner).around entered)

end ForParts

theorem Session.Passes.existing {machine : Machine} (passes : Session.Passes machine) :
    existingScopes.Holds machine := by
  rcases passes with ⟨steps, source, sink, clock, mem⟩
  have start := existingScopes_holds_initial source sink clock
  exact (Session.trace_governed (fun _ => trivial) steps _ start).1 machine mem

/-- A `for` statement that is parsed, with or without reports, runs as the loop that its parts are.
On any machine whose scopes exist, such as those that a session passes through, both end in the same
ways: with the same signal or failure, and with the same machine, which holds the contents of all
scopes, the input that is left and the output. -/
theorem for_statement_runs_as_loop {budget : Nat} {position : Position} {context : Context}
    {keyword : Token} {ts rest : List Token} {tree : Stmt} (isFor : keyword.kind = .for)
    (parsed : (statement (budget + 1) position context (keyword :: ts)).reply = .done tree rest) :
    ∃ parts, (forParts (expression (budget + 1)) (statement budget .branch context.loop) ts).reply =
      .done parts rest ∧ ∀ machine, existingScopes.Holds machine ∨ Session.Passes machine →
        ∀ result, (∀ after, result ≠ .error .suspended after) →
          ((∃ fuel, execute fuel tree machine = result) ↔
            ∃ fuel, parts.run fuel machine = result) := by
  rcases exists_forParts isFor parsed with ⟨parts, parsedParts, rfl, written⟩
  refine ⟨parts, parsedParts, ?_⟩
  intro machine fine result ended
  have holds : existingScopes.Holds machine := fine.elim id Session.Passes.existing
  have same := parts.sameEnds_tree written holds result
  constructor
  · intro reached
    exact (same.1 ⟨ended, reached⟩).reached
  · intro reached
    exact (same.2 ⟨ended, reached⟩).reached

/-- The clauses and the body of `for (var f = nil; !f; f = true) print f;`. -/
def printingOnce : List Token :=
  [Kind.leftParen, .var, .identifier, .equal, .nil, .semicolon, .bang, .identifier, .semicolon,
    .identifier, .equal,
    .true, .rightParen, .print, .identifier, .semicolon].map fun kind => ⟨⟨"f", 1⟩, kind⟩

/-- The tree of this statement. -/
def printingOnceTree : Stmt :=
  .forLoop (some (.var ⟨"f", 1⟩ (some (.literal .nil))))
    (some (.unary .not ⟨"f", 1⟩ (.variable ⟨"f", 1⟩)))
    (some (.assign ⟨"f", 1⟩ (.literal (.bool true)))) (.print (.variable ⟨"f", 1⟩))

theorem for_statement_runs_as_loop_printingOnce :
    (statement 20 .declaration .top (⟨⟨"f", 1⟩, .for⟩ :: printingOnce)).reply =
      .done printingOnceTree [] ∧
    (machineAfter (execute 20 printingOnceTree (.initial {} {} { time := fun _ => 0 }))).sink.text =
      "nil\n" ∧
    ∃ parts,
      (forParts (expression 20) (statement 19 .branch (Context.loop .top)) printingOnce).reply =
        .done parts [] ∧
      ∃ fuel, parts.run fuel (.initial {} {} { time := fun _ => 0 }) =
        execute 20 printingOnceTree (.initial {} {} { time := fun _ => 0 }) := by
  have parsed : (statement 20 .declaration .top (⟨⟨"f", 1⟩, .for⟩ :: printingOnce)).reply =
      .done printingOnceTree [] := rfl
  have ended : (match execute 20 printingOnceTree (.initial {} {} { time := fun _ => 0 }) with
    | .ok _ _ => true
    | .error _ _ => false) = true := by decide +kernel
  refine ⟨parsed, by decide +kernel, ?_⟩
  rcases for_statement_runs_as_loop rfl parsed with ⟨parts, parsedParts, same⟩
  refine ⟨parts, parsedParts, ?_⟩
  refine (same _ (.inl (existingScopes_holds_initial {} {} { time := fun _ => 0 })) _ ?_).1
    ⟨20, rfl⟩
  intro after suspended
  rw [suspended] at ended
  cases ended

end Lox
