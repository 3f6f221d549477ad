import Lox.Proofs.Machine.Console
import Lox.Proofs.Machine.RuledActs
import Lox.Proofs.Text.Lines

/-!
# Input line by line

Only a call of `input` takes anything from the input of a session, and each call takes one line.  So
what is left of the input at any moment is told by the number of calls before, whatever else was
done, and however the runs before ended.

* `Plan.ReadsNothing`: no task but a call of `input` reads a line itself.
* `Tallies`: at every moment the input that is left is what the calls so far have left of it.
* `Task.tallied`, `interpret_tallied`: every run keeps such a tally, by induction on the fuel.
* `Session.tallies`: so does every session.
* `inputCall_delivers_iff`: each call gives the content of the next line, except that of a last line
  without line end a carriage return at its end is lost.
-/

namespace Lox

open Plan Eval

/-! ## Calls of `input` -/

/-- A call of `input`: the fuel that is left for it, the line that it is on, its arguments and the
machine before it. -/
structure InputCall where
  fuel : Nat
  line : Nat
  arguments : List Value
  machine : Machine

/-- How the call ends. -/
def InputCall.result (call : InputCall) : EStateM.Result Halt Machine Value :=
  invoke (call.fuel + 1) (.native .input) call.line call.arguments call.machine

theorem InputCall.result_eq (call : InputCall) :
    call.result = Native.readLine call.line call.machine := rfl

/-- The call of `input` that starts here. -/
def Event.inputCall? : Event → Option InputCall
  | .starts ⟨fuel + 1, .invoke (.native .input) line arguments, machine⟩ =>
    some ⟨fuel, line, arguments, machine⟩
  | _ => none

/-- The calls of `input`, in the order in which they start. -/
def inputCalls (events : List Event) : List InputCall := events.filterMap Event.inputCall?

theorem inputCalls_append (events more : List Event) :
    inputCalls (events ++ more) = inputCalls events ++ inputCalls more :=
  List.filterMap_append

theorem inputCalls_cons (event : Event) (events : List Event) :
    inputCalls (event :: events) = event.inputCall?.toList ++ inputCalls events := by
  rw [inputCalls, List.filterMap_cons]
  cases event.inputCall? <;> rfl

/-- What starts is no call of `input`. -/
theorem Event.inputCall?_of_ne {fuel : Nat} {task : Task} (machine : Machine)
    (other : ∀ line arguments, task ≠ .invoke (.native .input) line arguments) :
    (Event.starts ⟨fuel, task, machine⟩).inputCall? = none := by
  unfold Event.inputCall?
  split
  next same =>
    cases same
    exact absurd rfl (other _ _)
  next => rfl

theorem Event.machine_of_inputCall? {event : Event} {call : InputCall}
    (calls : event.inputCall? = some call) : call.machine = event.machine := by
  unfold inputCall? at calls
  split at calls
  next =>
    cases calls
    rfl
  next => cases calls

/-! ## Plans that read nothing -/

/-- The act reads a line. -/
def Act.readsLine {α : Type} : Act α → Bool
  | .native .input _ _ => true
  | _ => false

theorem Act.source_perform {α : Type} {action : Act α} (readsNothing : action.readsLine = false)
    (machine : Machine) : (machineAfter (action.perform machine)).source = machine.source := by
  cases used : action.usesConsole with
  | false => exact ((disconnected used).connectedTo_eq machine).1
  | true =>
    cases action with
    | native primitive line arguments => cases primitive <;> contradiction
    | print text =>
      simp only [perform, Eval.print]
      split <;> rfl
    | _ => cases used

namespace Plan

variable {α β : Type}

/-- No act of the plan reads a line. -/
def ReadsNothing : Plan α → Prop
  | .done _ => True
  | .act action next => action.readsLine = false ∧ ∀ value, (next value).ReadsNothing
  | .start _ _ next => ∀ result, (next result).ReadsNothing

theorem ReadsNothing.bind {plan : Plan α} {f : α → Plan β} (readsNothing : plan.ReadsNothing)
    (further : ∀ value, (f value).ReadsNothing) : (plan >>= f).ReadsNothing := by
  induction plan with
  | done value => exact further value
  | act action next ih => exact ⟨readsNothing.1, fun value => ih value (readsNothing.2 value)⟩
  | start entry task next ih => exact fun result => ih result (readsNothing result)

theorem readsNothing_perform {action : Act α} (readsNothing : action.readsLine = false) :
    (perform action).ReadsNothing :=
  ⟨readsNothing, fun _ => trivial⟩

theorem readsNothing_start (entry : Entry) (task : Task) : (start entry task done).ReadsNothing :=
  fun _ => trivial

end Plan

theorem Expr.plan_readsNothing (expression : Expr) : expression.plan.ReadsNothing := by
  cases expression with
  | literal value => exact trivial
  | «variable» name => exact readsNothing_perform rfl
  | grouping inner => exact readsNothing_start _ _
  | assign name value =>
    exact (readsNothing_start _ _).bind fun _ => (readsNothing_perform rfl).bind fun _ => trivial
  | unary op mark operand => exact (readsNothing_start _ _).bind fun _ => readsNothing_perform rfl
  | operation left op mark right =>
    cases op with
    | binary op =>
      exact (readsNothing_start _ _).bind fun _ => (readsNothing_start _ _).bind fun _ =>
        readsNothing_perform rfl
    | logical op =>
      refine (readsNothing_start _ _).bind fun value => ?_
      split
      · exact trivial
      · exact readsNothing_start _ _
  | call callee paren arguments =>
    refine (readsNothing_start _ _).bind fun _ => (readsNothing_perform rfl).bind fun _ => ?_
    exact (readsNothing_start _ _).bind fun _ => (readsNothing_perform rfl).bind fun _ =>
      readsNothing_start _ _

theorem Stmt.plan_readsNothing (statement : Stmt) : statement.plan.ReadsNothing := by
  cases statement with
  | expression operand => exact (readsNothing_start _ _).bind fun _ => trivial
  | print operand =>
    exact (readsNothing_start _ _).bind fun _ => (readsNothing_perform rfl).bind fun _ => trivial
  | var name initializer =>
    exact (readsNothing_start _ _).bind fun _ => (readsNothing_perform rfl).bind fun _ => trivial
  | function name params body =>
    exact (readsNothing_perform rfl).bind fun _ => (readsNothing_perform rfl).bind fun _ => trivial
  | block statements => exact readsNothing_start _ _
  | «if» condition thenBranch elseBranch =>
    refine (readsNothing_start _ _).bind fun value => ?_
    split
    · exact readsNothing_start _ _
    · cases elseBranch with
      | none => exact trivial
      | some other => exact readsNothing_start _ _
  | «while» condition body => exact readsNothing_start _ _
  | «break» keyword => exact trivial
  | «return» keyword value => exact (readsNothing_start _ _).bind fun _ => trivial

/-- Only a call of `input` reads a line itself. -/
theorem Task.plan_readsNothing {task : Task}
    (other : ∀ line arguments, task ≠ .invoke (.native .input) line arguments) :
    task.plan.ReadsNothing := by
  cases task with
  | evaluate expression => exact expression.plan_readsNothing
  | evaluateAll expressions =>
    cases expressions with
    | nil => exact trivial
    | cons expression rest =>
      exact (readsNothing_start _ _).bind fun _ => (readsNothing_start _ _).bind fun _ => trivial
  | evaluateOption expression =>
    cases expression with
    | none => exact trivial
    | some expression => exact readsNothing_start _ _
  | invoke callable line arguments =>
    cases callable with
    | native primitive =>
      cases primitive with
      | input => exact absurd rfl (other line arguments)
      | clock => exact readsNothing_perform rfl
      | number => exact readsNothing_perform rfl
    | function closure => exact fun _ => trivial
  | execute statement => exact statement.plan_readsNothing
  | executeAll statements =>
    cases statements with
    | nil => exact trivial
    | cons statement rest =>
      refine (readsNothing_start _ _).bind fun signal => ?_
      cases signal with
      | completed => exact readsNothing_start _ _
      | broke keyword => exact trivial
      | returned keyword value => exact trivial
  | loop condition body =>
    refine (readsNothing_start _ _).bind fun _ => ?_
    split
    · refine (readsNothing_start _ _).bind fun signal => ?_
      cases signal with
      | completed => exact readsNothing_start _ _
      | broke keyword => exact trivial
      | returned keyword value => exact trivial
    · exact trivial

theorem programPlan_readsNothing (statements : List Stmt) :
    (programPlan statements).ReadsNothing := by
  induction statements with
  | nil => exact trivial
  | cons statement rest ih =>
    refine (readsNothing_start _ _).bind fun signal => ?_
    cases signal with
    | completed => exact ih
    | broke keyword => exact readsNothing_perform rfl
    | returned keyword value => exact readsNothing_perform rfl

/-! ## What is left of the input -/

/-- The source after so many lines. -/
def Source.after (source : Source) (count : Nat) : Source :=
  { source with lines := source.lines.drop count }

theorem Source.read_after (source : Source) (count : Nat) :
    (source.after count).read.2 = source.after (count + 1) := by
  obtain ⟨lines, ending⟩ := source
  simp only [after, ← List.tail_drop]
  cases lines.drop count with
  | nil => cases ending <;> rfl
  | cons line rest => cases line <;> rfl

/-- At every moment, as many lines are gone as there were calls of `input` before. -/
def Tallies (source : Source) : Nat → List Event → Prop
  | _, [] => True
  | count, event :: rest =>
    event.machine.source = source.after count ∧
      Tallies source (count + event.inputCall?.toList.length) rest

section

variable {source : Source} {count : Nat}

theorem tallies_append {events more : List Event} :
    Tallies source count (events ++ more) ↔
      Tallies source count events ∧ Tallies source (count + (inputCalls events).length) more := by
  induction events generalizing count with
  | nil => simp [Tallies, inputCalls]
  | cons event events ih =>
    rw [List.cons_append, Tallies, Tallies, ih, inputCalls_cons, List.length_append,
      Nat.add_assoc, and_assoc]

/-- A run keeps a tally, and what it leaves of the input is in accord with it. -/
structure Tallied {α : Type} (source : Source) (count : Nat) (events : List Event)
    (result : EStateM.Result Halt Machine α) : Prop where
  tallies : Tallies source count events
  left : (machineAfter result).source = source.after (count + (inputCalls events).length)

namespace Tallied

variable {α : Type} {events more : List Event} {result : EStateM.Result Halt Machine α}

theorem cons {event : Event} (here : event.machine.source = source.after count)
    (rest : Tallied source (count + event.inputCall?.toList.length) events result) :
    Tallied source count (event :: events) result where
  tallies := ⟨here, rest.tallies⟩
  left := by rw [rest.left, inputCalls_cons, List.length_append, Nat.add_assoc]

theorem append (before : Tallies source count events)
    (rest : Tallied source (count + (inputCalls events).length) more result) :
    Tallied source count (events ++ more) result where
  tallies := tallies_append.2 ⟨before, rest.tallies⟩
  left := by rw [rest.left, inputCalls_append, List.length_append, Nat.add_assoc]

theorem nil (left : (machineAfter result).source = source.after count) :
    Tallied source count [] result :=
  ⟨trivial, left⟩

end Tallied

theorem Plan.Course.tallied {α : Type} {run : (task : Task) → Eval task.Result}
    {traceOf : Task → Machine → List Event} {plan : Plan α} {machine : Machine}
    {events : List Event} {result : EStateM.Result Halt Machine α}
    (tasks : ∀ count task inner, inner.source = source.after count →
      Tallied source count (traceOf task inner) (run task inner))
    (course : Course run traceOf plan machine events result)
    (left : machine.source = source.after count) (readsNothing : plan.ReadsNothing) :
    Tallied source count events result := by
  induction course generalizing count with
  | done => exact .nil left
  | @acted β action next machine value after events result performed course ih =>
    have kept := action.source_perform readsNothing.1 machine
    rw [performed, left] at kept
    exact .cons kept (ih kept (readsNothing.2 value))
  | @stopped β action next machine halt after performed =>
    have kept := action.source_perform readsNothing.1 machine
    rw [performed, left] at kept
    exact .cons kept (.nil kept)
  | refused entered => exact .nil left
  | @returned entry task next machine inner value after events result entered ran course ih =>
    have inside := tasks count task inner ((Entry.enter_console entered).1.trans left)
    have leftAfter := (entry.leave_console machine after).1
    rw [ran] at inside
    rw [show after.source = _ from inside.left] at leftAfter
    exact .append inside.tallies (.cons leftAfter (ih leftAfter (readsNothing value)))
  | @halted entry task next machine inner halt after entered ran =>
    have inside := tasks count task inner ((Entry.enter_console entered).1.trans left)
    have leftAfter := (entry.leave_console machine after).1
    rw [ran] at inside
    rw [show after.source = _ from inside.left] at leftAfter
    exact .append inside.tallies (.cons leftAfter (.nil leftAfter))

/-- A call of `input` takes a line, and this is all that happens in it. -/
theorem Task.tallied_input {machine : Machine} (left : machine.source = source.after count)
    (fuel line : Nat) (arguments : List Value) :
    Tallied source count (Task.trace (fuel + 1) (.invoke (.native .input) line arguments) machine)
      (Task.run (fuel + 1) (.invoke (.native .input) line arguments) machine) := by
  have ran : Task.run (fuel + 1) (.invoke (.native .input) line arguments) machine =
      Native.readLine line machine := rfl
  have happens : Task.trace (fuel + 1) (.invoke (.native .input) line arguments) machine =
      [.starts ⟨fuel + 1, .invoke (.native .input) line arguments, machine⟩,
        .passes (machineAfter (Native.readLine line machine))] := by
    simp only [Task.trace, Task.plan, perform, Plan.trace, Act.perform, Native.invoke]
    cases Native.readLine line machine <;> rfl
  have leftAfter : (machineAfter (Native.readLine line machine)).source =
      source.after (count + 1) := by
    rw [Native.machineAfter_readLine, ← Source.read_after, ← left]
  rw [ran, happens]
  exact .cons left (.cons leftAfter (.nil leftAfter))

theorem Task.tallied (fuel : Nat) (count : Nat) (task : Task) (machine : Machine)
    (left : machine.source = source.after count) :
    Tallied source count (task.trace fuel machine) (task.run fuel machine) := by
  induction fuel generalizing count task machine with
  | zero =>
    rw [Task.run_zero]
    exact .cons left (.nil left)
  | succ fuel ih =>
    by_cases input : ∃ line arguments, task = .invoke (.native .input) line arguments
    · obtain ⟨line, arguments, rfl⟩ := input
      exact tallied_input left fuel line arguments
    · have other : ∀ line arguments, task ≠ .invoke (.native .input) line arguments :=
        fun line arguments same => input ⟨line, arguments, same⟩
      have rest := (Plan.course (Task.run fuel) (Task.trace fuel) task.plan machine).tallied ih left
        (plan_readsNothing other)
      rw [Task.run_succ]
      refine .cons left ?_
      rw [Event.inputCall?_of_ne machine other]
      exact rest

theorem interpret_tallied (fuel : Nat) (statements : List Stmt) {machine : Machine}
    (left : machine.source = source.after count) :
    Tallied source count (programTrace fuel statements machine)
      (interpret fuel statements machine) := by
  rw [interpret_eq_follow]
  have course := Plan.course (Task.run fuel) (Task.trace fuel) (programPlan statements) machine
  exact course.tallied (Task.tallied fuel) left (programPlan_readsNothing statements)

/-- In a session the lines go on from one step to the next. -/
theorem Session.tallies (steps : List (Nat × Step)) (session : Session)
    (left : session.machine.source = source.after count) :
    Tallies source count (events steps session) := by
  induction steps generalizing session count with
  | nil => exact ⟨left, trivial⟩
  | cons first rest ih =>
    rcases first with ⟨fuel, step⟩
    have tallied := interpret_tallied fuel (step.statements session) left
    have leftAfter := tallied.left
    rw [← Step.machine_perform] at leftAfter
    rcases exists_events_cons fuel step rest session with ⟨further, which, same⟩
    rw [same]
    refine ⟨left, tallies_append.2 ⟨tallied.tallies, ?_⟩⟩
    rcases which with rfl | rfl
    · exact ih _ leftAfter
    · exact ⟨leftAfter, trivial⟩

/-- Before each call of `input`, as many lines are gone as there were calls before. -/
theorem Tallies.source_eq {events : List Event} (tallies : Tallies source count events)
    {place : Nat} {call : InputCall} (found : (inputCalls events)[place]? = some call) :
    call.machine.source = source.after (count + place) := by
  -- Along the events the count goes up and the place in the rest goes down, so their sum stays.
  induction events generalizing count place with
  | nil => cases found
  | cons event events ih =>
    rcases tallies with ⟨here, rest⟩
    rw [inputCalls_cons] at found
    cases calls : event.inputCall? with
    | none =>
      rw [calls] at rest found
      exact ih rest found
    | some first =>
      rw [calls] at rest found
      cases place with
      | zero =>
        cases found
        rw [Event.machine_of_inputCall? calls]
        exact here
      | succ place =>
        have further := ih rest found
        rw [Option.toList_some, List.length_singleton, Nat.add_assoc, Nat.add_comm 1] at further
        exact further

end

/-! ## What is on a line -/

/-- What is on a line before its line end, which is a line feed or a carriage return and a line
feed. -/
def contentOf (line : List Char) : List Char :=
  if line.getLast? = some '\n' then
    if line.dropLast.getLast? = some '\r' then line.dropLast.dropLast else line.dropLast
  else line

/-- What a call of `input` is to give for a line, and if there is none. -/
def delivery (line : Option (List Char)) : Value :=
  line.elim .nil fun line => .string (.ofList (contentOf line))

/-- A carriage return is taken from the end of a line even if no line feed comes after it. -/
theorem Native.withoutLineEnd_ofList (line : List Char) :
    withoutLineEnd (.ofList line) =
      .ofList (if line.getLast? = some '\r' then line.dropLast else contentOf line) := by
  obtain ⟨content, has⟩ := exists_hasContent line
  have stripped : withoutLineEnd (.ofList line) = .ofList content := by
    apply HasContent.withoutLineEnd_eq
    rw [String.toList_ofList, String.toList_ofList]
    exact has
  rw [stripped]
  cases has with
  | full => simp [contentOf]
  | feed plain => simp [contentOf, plain]
  | carriage => simp
  | bare noReturn noFeed => simp [contentOf, noReturn, noFeed]

/-- Only the last line can end in a carriage return, and then the text does. -/
theorem Source.Cut.getLast?_eq_return_iff {lines : List (List Char)} (cut : Cut '\n' lines)
    {place : Nat} {line : List Char} (found : lines[place]? = some line) :
    line.getLast? = some '\r' ↔ place + 1 = lines.length ∧ lines.flatten.getLast? = some '\r' := by
  induction cut generalizing place with
  | nil => cases found
  | @last piece _ _ =>
    cases place with
    | zero =>
      cases found
      simp
    | succ place => cases found
  | @cons piece rest _ cut ih =>
    cases place with
    | zero =>
      cases found
      cases rest <;> simp
    | succ place =>
      have end_eq : ((piece ++ ['\n']) :: rest).flatten.getLast? = some '\r' ↔
          rest.flatten.getLast? = some '\r' := by
        rw [List.flatten_cons, List.getLast?_append]
        cases rest.flatten.getLast? <;> simp
      rw [ih found, end_eq, List.length_cons, Nat.add_right_cancel_iff]

theorem InputCall.exists_result {call : InputCall} {lines : List (List Char)} {place : Nat}
    (left : call.machine.source = (Source.ofText (.ofList lines.flatten)).after place)
    (cut : Source.Cut '\n' lines) :
    ∃ after, call.result =
      .ok (lines[place]?.elim .nil fun line => .string (Native.withoutLineEnd (.ofList line)))
        after := by
  rw [Source.ofText, Source.linesOf_eq_of_cut cut, Source.after, ← List.map_drop] at left
  rw [call.result_eq, ← List.head?_drop]
  unfold Native.readLine
  rw [left]
  cases lines.drop place with
  | nil => exact ⟨_, rfl⟩
  | cons line rest => exact ⟨_, rfl⟩

/-- A line that ends in a carriage return has no line end, so the carriage return is part of its
content. -/
theorem delivery_ne_dropLast {line : List Char} (ends : line.getLast? = some '\r') :
    Value.string (.ofList line.dropLast) ≠ delivery (some line) := by
  obtain ⟨front, rfl⟩ := List.getLast?_eq_some_iff.1 ends
  have whole : contentOf (front ++ ['\r']) = front ++ ['\r'] := by simp [contentOf]
  intro same
  have texts :
      String.ofList (front ++ ['\r']).dropLast = String.ofList (contentOf (front ++ ['\r'])) :=
    Value.string.inj same
  rw [whole, String.ofList_inj, List.dropLast_concat] at texts
  simp at texts

/-! ## Sessions -/

section

variable (text : String) (sink : Sink) (clock : Clock) (steps : List (Nat × Session.Step))
    {lines : List (List Char)}
  {place : Nat} {call : InputCall}

/-- The calls of a session get one line after the other. -/
theorem InputCall.exists_result_of_called (cut : Source.Cut '\n' lines)
    (whole : lines.flatten = text.toList)
    (called :
      (inputCalls (Session.events steps (.initial (.ofBytes text.toUTF8) sink clock)))[place]? =
        some call) :
    ∃ after, call.result =
      .ok (lines[place]?.elim .nil fun line => .string (Native.withoutLineEnd (.ofList line)))
        after := by
  have start : (Session.initial (.ofBytes text.toUTF8) sink clock).machine.source =
      (Source.ofText text).after 0 :=
    Source.ofBytes_toUTF8 text
  have left := (Session.tallies steps _ start).source_eq called
  rw [Nat.zero_add, ← String.ofList_toList (s := text), ← whole] at left
  exact exists_result left cut

/-- Whatever else a session does, its calls of `input` give one line of the text after the other,
without line ends, and `nil` after the last.  Only a carriage return that ends the whole text is
lost. -/
theorem inputCall_delivers_iff (cut : Source.Cut '\n' lines) (whole : lines.flatten = text.toList)
    (called :
      (inputCalls (Session.events steps (.initial (.ofBytes text.toUTF8) sink clock)))[place]? =
        some call) :
    ∃ value after, call.result = .ok value after ∧
      (value = delivery lines[place]? ↔
        ¬ (place + 1 = lines.length ∧ text.toList.getLast? = some '\r')) ∧
      ∀ line, lines[place]? = some line → place + 1 = lines.length ∧
        text.toList.getLast? = some '\r' → value = .string (.ofList line.dropLast) := by
  obtain ⟨after, returned⟩ :=
    InputCall.exists_result_of_called text sink clock steps cut whole called
  refine ⟨_, after, returned, ?_⟩
  rw [← whole]
  cases found : lines[place]? with
  | none =>
    have past : lines.length ≤ place := List.getElem?_eq_none_iff.1 found
    exact ⟨iff_of_true rfl fun last => by omega, fun _ same => by cases same⟩
  | some line =>
    rw [← cut.getLast?_eq_return_iff found, Option.elim_some, Native.withoutLineEnd_ofList]
    by_cases ends : line.getLast? = some '\r'
    · rw [if_pos ends]
      refine ⟨iff_of_false (delivery_ne_dropLast ends) fun other => other ends, ?_⟩
      rintro _ ⟨⟩ _
      rfl
    · rw [if_neg ends]
      exact ⟨iff_of_true rfl ends, fun _ _ other => absurd other ends⟩

end

/-- Reads a line in a function, and then fails. -/
def failingReader : Nat × Session.Step := (20, .run "fun f() \x7b return input(); \x7d f() - 1;")

/-- The third line is for the third call, though the first was in a run that failed. -/
theorem inputCall_delivers_iff_afterFailure :
    ∃ call value after,
      (inputCalls (Session.events [failingReader, (20, .run "input(); print input();")]
        (.initial (.ofBytes "a\r\n\n\rb".toUTF8) {} { time := fun _ => 0 })))[2]? = some call ∧
      call.result = .ok value after ∧ value = delivery (some ['\r', 'b']) := by
  have last : Source.Cut '\n' [['\r', 'b']] := .last (by decide) (by decide)
  have cut : Source.Cut '\n' [['a', '\r', '\n'], ['\n'], ['\r', 'b']] :=
    @Source.Cut.cons _ _ ['a', '\r'] _ (by decide) (@Source.Cut.cons _ _ [] _ (by decide) last)
  have present : (inputCalls (Session.events [failingReader, (20, .run "input(); print input();")]
      (.initial (.ofBytes "a\r\n\n\rb".toUTF8) {} { time := fun _ => 0 })))[2]?.isSome := by
        decide +kernel
  obtain ⟨call, called⟩ := Option.isSome_iff_exists.1 present
  obtain ⟨value, after, returned, delivers, -⟩ :=
    inputCall_delivers_iff "a\r\n\n\rb" {} { time := fun _ => 0 } _ cut (by decide) called
  exact ⟨call, value, after, called, returned, delivers.2 (by decide)⟩

/-- The text is one line, which ends in a carriage return and has no line end, but the carriage
return is not given. -/
theorem inputCall_loses_carriageReturn :
    ∃ call after,
      (inputCalls (Session.events [(20, .run "print input();")]
        (.initial (.ofBytes "a\r".toUTF8) {} { time := fun _ => 0 })))[0]? = some call ∧
      Source.Cut '\n' [['a', '\r']] ∧ [['a', '\r']].flatten = "a\r".toList ∧
      call.result = .ok (.string "a") after ∧ Value.string "a" ≠ delivery (some ['a', '\r']) := by
  have cut : Source.Cut '\n' [['a', '\r']] := .last (by decide) (by decide)
  have present : (inputCalls (Session.events [(20, .run "print input();")]
      (.initial (.ofBytes "a\r".toUTF8) {} { time := fun _ => 0 })))[0]?.isSome := by decide +kernel
  obtain ⟨call, called⟩ := Option.isSome_iff_exists.1 present
  obtain ⟨after, returned⟩ :=
    InputCall.exists_result_of_called "a\r" {} { time := fun _ => 0 } _ cut (by decide) called
  exact ⟨call, after, called, cut, by
    decide, returned, @delivery_ne_dropLast ['a', '\r'] (by decide)⟩

end Lox
