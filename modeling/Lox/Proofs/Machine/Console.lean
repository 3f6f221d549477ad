import Lox.Proofs.Machine.ControlState

/-!
# What a run does with its input and its output

Only two acts touch what a machine is connected to: `input` takes a line from the front of its
input, and `print` adds to its output.  So input is used up from the front, output only grows, and a
run that does not get to see a part of its input, or that does not look back at its output, does the
same with another input behind that part and another output before its own.

* `Act.disconnected`: what the other acts do, they do whatever the machine is connected to.
* `Machine.Proceeds`: what a run leaves of its input and has as its output.
* `Rewiring`: a change of input and output.  `Rewiring.unnoticed_interpret`: a program does the same
  after it.
-/

namespace Lox

open Plan Eval

/-- The machine with other input and output. -/
def Machine.connectedTo (machine : Machine) (source : Source) (sink : Sink) : Machine :=
  { machine with source, sink }

/-- The same result, with what is left behind changed. -/
def leaving {ε σ α : Type} (change : σ → σ) : EStateM.Result ε σ α → EStateM.Result ε σ α
  | .ok value state => .ok value (change state)
  | .error error state => .error error (change state)

theorem machineAfter_leaving {α : Type} (change : Machine → Machine)
    (result : EStateM.Result Halt Machine α) :
    machineAfter (leaving change result) = change (machineAfter result) := by
  cases result <;> rfl

/-! ## Acts -/

/-- The run does the same whatever the machine is connected to. -/
def Disconnected {α : Type} (run : Eval α) : Prop :=
  ∀ machine source sink,
    run (Machine.connectedTo machine source sink) =
      leaving (·.connectedTo source sink) (run machine)

namespace Disconnected

variable {α : Type}

theorem fixed {run : Eval α} (fixed : Fixed run) : Disconnected run := by
  intro machine source sink
  cases fixed with
  | value value => rfl
  | fails other => rfl

theorem lookup (name : Lexeme) : Disconnected (Eval.lookup name) := by
  intro machine source sink
  have same : (machine.connectedTo source sink).scopes.get?
      (machine.connectedTo source sink).current name.text =
      machine.scopes.get? machine.current name.text := rfl
  simp only [Eval.lookup, same]
  cases machine.scopes.get? machine.current name.text <;> rfl

theorem assign (name : Lexeme) (value : Value) : Disconnected (Eval.assign name value) := by
  intro machine source sink
  have same :
      (machine.connectedTo source sink).scopes.assign? (machine.connectedTo source sink).current
        name.text value =
        machine.scopes.assign? machine.current name.text value := rfl
  simp only [Eval.assign, same]
  cases machine.scopes.assign? machine.current name.text value <;> rfl

theorem clock (line : Nat) : Disconnected (Native.readClock line) := by
  intro machine source sink
  have same : (machine.connectedTo source sink).clock.read = machine.clock.read := rfl
  simp only [Native.readClock, same]
  rcases machine.clock.read with ⟨time, clock⟩
  cases time <;> rfl

/-- In particular it leaves the machine connected as it was. -/
theorem connectedTo_eq {run : Eval α} (disconnected : Disconnected run) (machine : Machine) :
    (machineAfter (run machine)).source = machine.source ∧
    (machineAfter (run machine)).sink = machine.sink := by
  have same := disconnected machine machine.source machine.sink
  have self : machine.connectedTo machine.source machine.sink = machine := rfl
  rw [self] at same
  rw [same, machineAfter_leaving]
  exact ⟨rfl, rfl⟩

end Disconnected

/-- The act reads a line or prints one. -/
def Act.usesConsole {α : Type} : Act α → Bool
  | .native .input _ _ | .print _ => true
  | _ => false

theorem Act.disconnected {α : Type} {action : Act α} (unused : action.usesConsole = false) :
    Disconnected action.perform := by
  cases action with
  | lookup name => exact .lookup name
  | assign name value => exact .assign name value
  | define name value => exact fun _ _ _ => rfl
  | declare name params body => exact fun _ _ _ => rfl
  | unary op line operand => exact .fixed (.unary op line operand)
  | binary op line left right => exact .fixed (.binary op line left right)
  | callee line value => exact .fixed (.callee line value)
  | arity line callable arguments => exact .fixed (.arity line callable arguments)
  | native primitive line arguments =>
    cases primitive with
    | clock => exact .clock line
    | input => cases unused
    | number => exact .fixed (.number line _)
  | print text => cases unused
  | fail line fault => exact fun _ _ _ => rfl

/-! ## Input is used up and output grows -/

theorem Source.read_lines (source : Source) : source.read.2.lines <:+ source.lines := by
  obtain ⟨lines, ending⟩ := source
  cases lines with
  | nil => cases ending <;> exact List.suffix_rfl
  | cons line rest => cases line <;> exact List.suffix_cons ..

theorem Source.read_ending (source : Source) : source.read.2.ending = source.ending := by
  obtain ⟨lines, ending⟩ := source
  cases lines with
  | nil => cases ending <;> rfl
  | cons line rest => cases line <;> rfl

namespace Sink

variable {sink after : Sink} {text : String}

theorem text_of_write (written : sink.write text = .ok after) : after.text = sink.text ++ text := by
  unfold write at written
  split at written
  · cases written
    rfl
  · split at written
    · cases written
    · cases written
      rfl

theorem limit_of_write (written : sink.write text = .ok after) (unlimited : sink.limit = none) :
    after.limit = none := by
  unfold write at written
  rw [unlimited] at written
  cases written
  rfl

/-- Writing a line fails at once, or it fails at the line end and leaves the text, or it
succeeds. -/
theorem writeLine_cases (sink : Sink) (text : String) :
    (∃ error, sink.write text = .error error ∧ sink.writeLine text = .error error sink) ∨
    (∃ middle error, sink.write text = .ok middle ∧ middle.write "\n" = .error error ∧
      sink.writeLine text = .error error middle) ∨
    ∃ middle after, sink.write text = .ok middle ∧ middle.write "\n" = .ok after ∧
      sink.writeLine text = .ok () after := by
  unfold writeLine
  cases first : sink.write text with
  | error error => exact .inl ⟨error, rfl, rfl⟩
  | ok middle =>
    cases second : middle.write "\n" with
    | error error => exact .inr (.inl ⟨middle, error, rfl, second, by simp only [second]⟩)
    | ok after => exact .inr (.inr ⟨middle, after, rfl, second, by simp only [second]⟩)

theorem exists_of_writeLine (written : sink.writeLine text = .ok () after) :
    ∃ middle, sink.write text = .ok middle ∧ middle.write "\n" = .ok after := by
  rcases sink.writeLine_cases text with ⟨error, -, failed⟩ | ⟨middle, error, -, -, failed⟩ |
    ⟨middle, last, first, second, ended⟩
  · rw [failed] at written
    cases written
  · rw [failed] at written
    cases written
  · rw [ended] at written
    cases written
    exact ⟨middle, first, second⟩

theorem text_of_writeLine (written : sink.writeLine text = .ok () after) :
    after.text = sink.text ++ (text ++ "\n") := by
  obtain ⟨middle, first, second⟩ := exists_of_writeLine written
  rw [text_of_write second, text_of_write first, String.append_assoc]

theorem limit_of_writeLine (written : sink.writeLine text = .ok () after)
    (unlimited : sink.limit = none) : after.limit = none := by
  obtain ⟨middle, first, second⟩ := exists_of_writeLine written
  exact limit_of_write second (limit_of_write first unlimited)

/-- A line that is not written to its end leaves nothing or its text. -/
theorem of_writeLine_error {error : String} (failed : sink.writeLine text = .error error after) :
    after = sink ∨ sink.write text = .ok after := by
  rcases sink.writeLine_cases text with ⟨other, -, refused⟩ | ⟨middle, other, first, -, refused⟩ |
    ⟨middle, last, -, -, ended⟩
  · rw [refused] at failed
    cases failed
    exact .inl rfl
  · rw [refused] at failed
    cases failed
    exact .inr first
  · rw [ended] at failed
    cases failed

end Sink

/-- The input of the second machine is what is left of that of the first, and its output goes on
from that of the first. -/
structure Machine.Proceeds (before after : Machine) : Prop where
  lines : after.source.lines <:+ before.source.lines
  ending : after.source.ending = before.source.ending
  output : ∃ more, after.sink.text = before.sink.text ++ more
  unlimited : before.sink.limit = none → after.sink.limit = none

namespace Machine.Proceeds

theorem of_eq {before after : Machine} (source : after.source = before.source)
    (sink : after.sink = before.sink) : before.Proceeds after where
  lines := by simp only [source, List.suffix_rfl]
  ending := by rw [source]
  output := by
    rw [sink]
    exact ⟨"", (String.append_empty).symm⟩
  unlimited := by
    rw [sink]
    exact id

theorem refl (machine : Machine) : machine.Proceeds machine := of_eq rfl rfl

theorem trans {before middle after : Machine} (first : before.Proceeds middle)
    (second : middle.Proceeds after) : before.Proceeds after where
  lines := second.lines.trans first.lines
  ending := second.ending.trans first.ending
  output := by
    obtain ⟨more, output⟩ := first.output
    obtain ⟨others, outputAfter⟩ := second.output
    refine ⟨more ++ others, ?_⟩
    rw [outputAfter, output, String.append_assoc]
  unlimited := second.unlimited ∘ first.unlimited

end Machine.Proceeds

theorem Native.machineAfter_readLine (line : Nat) (machine : Machine) :
    machineAfter (readLine line machine) = { machine with source := machine.source.read.2 } := by
  unfold readLine
  rcases machine.source.read with ⟨reading, source⟩
  cases reading <;> rfl

theorem Act.perform_proceeds {α : Type} (action : Act α) (machine : Machine) :
    machine.Proceeds (machineAfter (action.perform machine)) := by
  cases used : action.usesConsole with
  | false =>
    obtain ⟨source, sink⟩ := (disconnected used).connectedTo_eq machine
    exact .of_eq source sink
  | true =>
    cases action with
    | native primitive line arguments =>
      cases primitive with
      | input =>
        have read : machineAfter ((Act.native .input line arguments).perform machine) =
            { machine with source := machine.source.read.2 } :=
              Native.machineAfter_readLine line machine
        rw [read]
        exact ⟨machine.source.read_lines, machine.source.read_ending,
          (Machine.Proceeds.refl machine).output, id⟩
      | clock => cases used
      | number => cases used
    | print text =>
      simp only [perform, Eval.print]
      split
      · next sink written =>
        exact ⟨List.suffix_rfl, rfl, ⟨_, Sink.text_of_writeLine written⟩,
          Sink.limit_of_writeLine written⟩
      · next sink failed =>
        rcases Sink.of_writeLine_error failed with rfl | written
        · exact .refl machine
        · exact ⟨List.suffix_rfl, rfl, ⟨_, Sink.text_of_write written⟩, Sink.limit_of_write written⟩
    | _ => cases used

/-! ## Whole runs -/

namespace Entry

variable {entry : Entry} {machine inner after : Machine}

/-- Starting a task does nothing to what the machine is connected to. -/
theorem enter_console (entered : entry.enter machine = .ok inner) :
    inner.source = machine.source ∧ inner.sink = machine.sink := by
  cases entry with
  | call line =>
    rw [enter] at entered
    split at entered
    · cases entered
    · cases entered
      exact ⟨rfl, rfl⟩
  | _ =>
    cases entered
    exact ⟨rfl, rfl⟩

theorem leave_console (entry : Entry) (machine after : Machine) :
    (entry.leave machine after).source = after.source ∧
    (entry.leave machine after).sink = after.sink := by
  cases entry <;> exact ⟨rfl, rfl⟩

theorem leave_proceeds (entered : entry.enter machine = .ok inner) (inside : inner.Proceeds after) :
    machine.Proceeds (entry.leave machine after) := by
  obtain ⟨source, sink⟩ := enter_console entered
  obtain ⟨sourceAfter, sinkAfter⟩ := entry.leave_console machine after
  exact (Machine.Proceeds.of_eq source sink).trans (inside.trans (.of_eq sourceAfter sinkAfter))

end Entry

theorem Plan.follow_proceeds {α : Type} {run : (task : Task) → Eval task.Result}
    (tasks : ∀ task inner, Machine.Proceeds inner (machineAfter (run task inner))) (plan : Plan α)
    (machine : Machine) : machine.Proceeds (machineAfter (plan.follow run machine)) := by
  have course := plan.course run (fun _ _ => []) machine
  generalize plan.follow run machine = result at course
  generalize plan.trace run (fun _ _ => []) machine = events at course
  induction course with
  | done => exact .refl _
  | @acted β action next machine value after events result performed _ ih =>
    have first := action.perform_proceeds machine
    rw [performed] at first
    exact first.trans ih
  | @stopped β action next machine halt after performed =>
    have last := action.perform_proceeds machine
    rw [performed] at last
    exact last
  | refused => exact .refl _
  | @returned entry task next machine inner value after events result entered ran _ ih =>
    have inside := tasks task inner
    rw [ran] at inside
    exact (Entry.leave_proceeds entered inside).trans ih
  | @halted entry task next machine inner halt after entered ran =>
    have inside := tasks task inner
    rw [ran] at inside
    exact Entry.leave_proceeds entered inside

theorem Task.run_proceeds (fuel : Nat) (task : Task) (machine : Machine) :
    machine.Proceeds (machineAfter (task.run fuel machine)) := by
  induction fuel generalizing task machine with
  | zero =>
    rw [Task.run_zero]
    exact .refl machine
  | succ fuel ih =>
    rw [Task.run_succ]
    exact follow_proceeds ih task.plan machine

/-- A program uses up input from the front and adds to its output. -/
theorem interpret_proceeds (fuel : Nat) (statements : List Stmt) (machine : Machine) :
    machine.Proceeds (machineAfter (interpret fuel statements machine)) := by
  rw [interpret_eq_follow]
  exact follow_proceeds (Task.run_proceeds fuel) _ machine

/-! ## Other input and other output -/

/-- A change of input and output that makes no difference to a run, as long as what is left of the
input is safe. -/
structure Rewiring where
  source : Source → Source
  sink : Sink → Sink
  Safe : Source → Prop
  safe_of_suffix : ∀ {before after : Source}, after.lines <:+ before.lines →
    Safe after → Safe before
  read_eq : ∀ {before : Source}, Safe before.read.2 →
    (source before).read = (before.read.1, source before.read.2)
  write_eq : ∀ (before : Sink) (text : String), (sink before).write text =
    (before.write text).map sink
  /-- As much is read as before, and as much is written. -/
  lines_eq : ∀ {before after : Source} {taken : List Line}, Safe after →
    before.lines = taken ++ after.lines → (source before).lines = taken ++ (source after).lines
  text_eq : ∀ {before after : Sink} {more : String}, after.text = before.text ++ more →
    (sink after).text = (sink before).text ++ more

namespace Rewiring

variable (rewiring : Rewiring) {α β : Type}

def apply (machine : Machine) : Machine :=
  machine.connectedTo (rewiring.source machine.source) (rewiring.sink machine.sink)

theorem writeLine_eq (before : Sink) (text : String) :
    (rewiring.sink before).writeLine text = leaving rewiring.sink (before.writeLine text) := by
  unfold Sink.writeLine
  rw [rewiring.write_eq]
  cases before.write text with
  | error error => rfl
  | ok middle =>
    simp only [Except.map, rewiring.write_eq middle]
    cases middle.write "\n" <;> rfl

theorem enter_apply (entry : Entry) (machine : Machine) :
    entry.enter (rewiring.apply machine) = (entry.enter machine).map rewiring.apply := by
  cases entry with
  | call line =>
    have same : (rewiring.apply machine).depth = machine.depth := rfl
    rw [Entry.enter, Entry.enter, same]
    split <;> rfl
  | _ => rfl

theorem leave_apply (entry : Entry) (machine after : Machine) :
    entry.leave (rewiring.apply machine) (rewiring.apply after) =
      rewiring.apply (entry.leave machine after) := by
  cases entry <;> rfl

/-- A run does the same on the machine with other input and output, if it leaves enough of its
input. -/
def Unnoticed (run : Eval α) (machine : Machine) : Prop :=
  rewiring.Safe (machineAfter (run machine)).source →
    run (rewiring.apply machine) = leaving rewiring.apply (run machine)

variable {rewiring} {machine : Machine}

theorem unnoticed_of_disconnected {run : Eval α} (disconnected : Disconnected run) :
    rewiring.Unnoticed run machine := by
  intro _
  obtain ⟨source, sink⟩ := disconnected.connectedTo_eq machine
  rw [apply, disconnected]
  cases ran : run machine with
  | ok value after =>
    rw [ran] at source sink
    simp only [leaving, apply, ← show after.source = machine.source from source,
      ← show after.sink = machine.sink from sink]
  | error halt after =>
    rw [ran] at source sink
    simp only [leaving, apply, ← show after.source = machine.source from source,
      ← show after.sink = machine.sink from sink]

theorem unnoticed_readLine (line : Nat) : rewiring.Unnoticed (Native.readLine line) machine := by
  intro safe
  rw [Native.machineAfter_readLine] at safe
  have read := rewiring.read_eq safe
  change (rewiring.apply machine).source.read = _ at read
  unfold Native.readLine
  rw [read]
  rcases machine.source.read with ⟨reading, source⟩
  cases reading <;> rfl

theorem unnoticed_print (text : String) : rewiring.Unnoticed (Eval.print text) machine := by
  intro _
  have written := rewiring.writeLine_eq machine.sink text
  change (rewiring.apply machine).sink.writeLine text = _ at written
  unfold Eval.print
  rw [written]
  cases machine.sink.writeLine text <;> rfl

theorem unnoticed_perform (action : Act α) : rewiring.Unnoticed action.perform machine := by
  cases used : action.usesConsole with
  | false => exact unnoticed_of_disconnected (Act.disconnected used)
  | true =>
    cases action with
    | native primitive line arguments =>
      cases primitive with
      | input => exact unnoticed_readLine line
      | clock => cases used
      | number => cases used
    | print text => exact unnoticed_print text
    | _ => cases used

theorem unnoticed_bind {first : Eval α} {next : α → Eval β}
    (start : rewiring.Unnoticed first machine)
    (rest : ∀ value middle, first machine = .ok value middle →
      rewiring.Unnoticed (next value) middle)
    (proceeds : ∀ value middle, first machine = .ok value middle →
      middle.Proceeds (machineAfter (next value middle))) :
    rewiring.Unnoticed (first >>= next) machine := by
  intro safe
  cases ran : first machine with
  | ok value middle =>
    rw [bind_of_ok ran] at safe ⊢
    -- The rest only uses up input, so what is left after it was there before it.
    have safeMiddle := rewiring.safe_of_suffix (proceeds value middle ran).lines safe
    have same := start (by rw [ran]; exact safeMiddle)
    rw [ran] at same
    rw [bind_of_ok same]
    exact rest value middle ran safe
  | error halt middle =>
    rw [bind_of_error ran] at safe ⊢
    have same := start (by rw [ran]; exact safe)
    rw [ran] at same
    rw [bind_of_error same]
    rfl

theorem unnoticed_around {entry : Entry} {run : Eval α}
    (inside : ∀ inner, rewiring.Unnoticed run inner) :
    rewiring.Unnoticed (entry.around run) machine := by
  intro safe
  have entered' := rewiring.enter_apply entry machine
  cases entered : entry.enter machine with
  | error halt =>
    rw [entered] at entered'
    rw [Entry.around_of_refused entered, Entry.around_of_refused entered']
    rfl
  | ok inner =>
    rw [entered] at entered'
    cases ran : run inner with
    | ok value after =>
      rw [Entry.around_of_ok entered ran] at safe ⊢
      rw [machineAfter, (entry.leave_console machine after).1] at safe
      have same := inside inner (by rw [ran]; exact safe)
      rw [ran] at same
      rw [Entry.around_of_ok entered' same, leave_apply]
      rfl
    | error halt after =>
      rw [Entry.around_of_error entered ran] at safe ⊢
      rw [machineAfter, (entry.leave_console machine after).1] at safe
      have same := inside inner (by rw [ran]; exact safe)
      rw [ran] at same
      rw [Entry.around_of_error entered' same, leave_apply]
      rfl

theorem unnoticed_follow {run : (task : Task) → Eval task.Result}
    (tasks : ∀ task inner, rewiring.Unnoticed (run task) inner)
    (proceeds : ∀ task inner, Machine.Proceeds inner (machineAfter (run task inner)))
    (plan : Plan α) : rewiring.Unnoticed (plan.follow run) machine := by
  induction plan generalizing machine with
  | done value =>
    intro _
    rfl
  | act action next ih =>
    refine unnoticed_bind (unnoticed_perform action) (fun value _ _ => ih value) ?_
    intro value middle _
    exact follow_proceeds proceeds (next value) middle
  | start entry task next ih =>
    refine unnoticed_bind (unnoticed_around (tasks task)) (fun value _ _ => ih value) ?_
    intro value middle _
    exact follow_proceeds proceeds (next value) middle

theorem unnoticed_run (fuel : Nat) (task : Task) : rewiring.Unnoticed (task.run fuel) machine := by
  induction fuel generalizing task machine with
  | zero =>
    intro _
    rw [Task.run_zero]
    rfl
  | succ fuel ih =>
    rw [Task.run_succ]
    exact unnoticed_follow (fun task _ => ih task) (Task.run_proceeds fuel) task.plan

/-- A program does the same with other input and output. -/
theorem unnoticed_interpret (fuel : Nat) (statements : List Stmt) :
    rewiring.Unnoticed (interpret fuel statements) machine := by
  rw [interpret_eq_follow]
  exact unnoticed_follow (fun task _ => unnoticed_run fuel task) (Task.run_proceeds fuel) _

/-- More output before that of the run. -/
def outputBefore (earlier : String) : Rewiring where
  source := id
  sink sink := { sink with text := earlier ++ sink.text }
  Safe _ := True
  safe_of_suffix _ _ := trivial
  read_eq _ := rfl
  write_eq sink text := by
    obtain ⟨output, limit⟩ := sink
    cases limit with
    | none => simp only [Sink.write, Except.map, String.append_assoc]
    | some limit =>
      simp only [Sink.write]
      split
      · rfl
      · simp only [Except.map, String.append_assoc]
  lines_eq _ lines := lines
  text_eq text := by rw [text, String.append_assoc]

/-- Lines with others in the place of the last ones. -/
def replaceLast (last others lines : List Line) : List Line :=
  lines.take (lines.length - last.length) ++ others

theorem replaceLast_append (last others front : List Line) :
    replaceLast last others (front ++ last) = front ++ others := by
  have front' : (front ++ last).length - last.length = front.length := by
    rw [List.length_append, Nat.add_sub_cancel]
  rw [replaceLast, front', List.take_left']
  rfl

/-- Other input behind that of the run. -/
def inputBehind {last : List Line} (nonempty : last ≠ []) (others : List Line) : Rewiring where
  source source := { source with lines := replaceLast last others source.lines }
  sink := id
  Safe source := last <:+ source.lines
  safe_of_suffix shorter safe := safe.trans shorter
  read_eq {before} safe := by
    obtain ⟨lines, ending⟩ := before
    cases lines with
    | nil =>
      -- The lines that are replaced are still to come, so the input has not ended.
      have none : last <:+ [] := by cases ending <;> exact safe
      exact absurd (List.suffix_nil.1 none) nonempty
    | cons line rest =>
      have behind : last <:+ rest := by cases line <;> exact safe
      obtain ⟨front, rfl⟩ := behind
      have whole := replaceLast_append last others (line :: front)
      rw [List.cons_append] at whole
      cases line <;> simp only [Source.read, whole, List.cons_append, replaceLast_append]
  write_eq sink text := by
    rw [id_eq]
    cases sink.write text <;> rfl
  lines_eq {before after taken} safe lines := by
    obtain ⟨front, same⟩ := safe
    rw [lines, ← same, ← List.append_assoc, replaceLast_append, replaceLast_append,
      List.append_assoc]
  text_eq text := text

end Rewiring

end Lox
