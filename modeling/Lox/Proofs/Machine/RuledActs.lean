import Lox.Proofs.Machine.Fuel
import Lox.Proofs.Machine.RuledValues
import Lox.Proofs.Machine.Rules
import Lox.Proofs.Machine.ScopeChains

/-!
# Acts and rules

What a run does on the machine itself is what the rules say of names, operators and native
functions.  The rules give a result wherever an act ends, and it is the result of the act.
-/

namespace Lox

open Plan Eval

/-! ## Ends -/

namespace Final

variable {α : Type}

/-- The end of a run that ends so. -/
def lift : Final α → EStateM.Result Halt Machine α
  | .ok value machine => .ok value machine
  | .error failure machine => .error (.failure failure) machine

theorem eq_of_lift {final other : Final α} (same : final.lift = other.lift) : final = other := by
  cases final with
  | ok value machine =>
    cases other with
    | ok => cases same; rfl
    | error => cases same
  | error failure machine =>
    cases other with
    | ok => cases same
    | error => cases same; rfl

theorem ended_lift (final : Final α) : Ended final.lift := by
  cases final with
  | ok value machine => exact ended_ok value machine
  | error failure machine => exact ended_error_iff.2 (by simp)

theorem exists_lift_eq {result : EStateM.Result Halt Machine α} (ended : Ended result) :
    ∃ final : Final α, final.lift = result := by
  cases result with
  | ok value machine => exact ⟨.ok value machine, rfl⟩
  | error halt machine =>
    cases halt with
    | failure failure => exact ⟨.error failure machine, rfl⟩
    | suspended => exact absurd rfl (ended machine)

end Final

/-! ## Acts -/

section Acts

variable {machine : Machine}

section Names

variable {name : Lexeme} {value old : Value} {target : ScopeId} {after : Machine}

theorem lookup_of_finds (acyclic : machine.scopes.Acyclic) {scope : Scope}
    (finds : machine.scopes.Finds name.text machine.current target)
    (found : machine.scopes.cells[target]? = some scope)
    (bound : scope.bindings.get? name.text = some value) :
    Eval.lookup name machine = .ok value machine := by
  have meaning : machine.scopes.get? machine.current name.text = some value := by
    rw [Scopes.get?_eq_bind_resolve?, (Scopes.resolve?_eq_some_iff acyclic).2 finds,
      Option.bind_some, found]
    exact bound
  rw [Eval.lookup, meaning]

theorem lookup_of_unbound (acyclic : machine.scopes.Acyclic)
    (never : ∀ target, ¬ machine.scopes.Finds name.text machine.current target) :
    Eval.lookup name machine =
      .error (.failure (.runtime name.line (.undefinedVariable name.text))) machine := by
  rw [Eval.lookup, Scopes.get?_eq_bind_resolve?, Scopes.resolve?_eq_none acyclic never,
    Option.bind_none]
  rfl

theorem assign_of_finds (acyclic : machine.scopes.Acyclic)
    (finds : machine.scopes.Finds name.text machine.current target) (value : Value) :
    Eval.assign name value machine =
      .ok () { machine with scopes := machine.scopes.define target name.text value } := by
  rw [Eval.assign, Scopes.assign?, (Scopes.resolve?_eq_some_iff acyclic).2 finds]

theorem assign_of_unbound (acyclic : machine.scopes.Acyclic)
    (never : ∀ target, ¬ machine.scopes.Finds name.text machine.current target) (value : Value) :
    Eval.assign name value machine =
      .error (.failure (.runtime name.line (.undefinedVariable name.text))) machine := by
  rw [Eval.assign, Scopes.assign?, Scopes.resolve?_eq_none acyclic never]
  rfl

theorem lookup_of_means (acyclic : machine.scopes.Acyclic)
    (means : machine.Means name.text value target) :
    Eval.lookup name machine = .ok value machine := by
  obtain ⟨finds, scope, found, bound⟩ := Scopes.means_iff.1 means
  exact lookup_of_finds acyclic finds found bound

theorem assign_of_defines (acyclic : machine.scopes.Acyclic)
    (means : machine.Means name.text old target)
    (defines : machine.Defines target name.text value after) :
    Eval.assign name value machine = .ok () after := by
  obtain ⟨scopes, defines, rfl⟩ := defines
  obtain ⟨-, rfl⟩ := Scopes.defines_iff.1 defines
  exact assign_of_finds acyclic (Scopes.means_iff.1 means).1 value

/-- No scope is found for a name that means nothing. -/
theorem Machine.not_finds {name : String}
    (never : ∀ value target, ¬ machine.Means name value target) (target : ScopeId) :
    ¬ machine.scopes.Finds name machine.current target := by
  intro finds
  obtain ⟨value, means⟩ := Scopes.exists_means_iff.2 finds
  exact never value target means

/-- A scope that exists can have a name bound in it. -/
theorem Machine.exists_defines {id : ScopeId} (existing : id < machine.scopes.nextId)
    (name : String) (value : Value) : ∃ after, machine.Defines id name value after :=
  ⟨_, _, Scopes.defines_iff.2 ⟨existing, rfl⟩, rfl⟩

theorem Machine.Means.target_lt {name : String}
    (means : machine.Means name value target) : target < machine.scopes.nextId := by
  obtain ⟨-, scope, found, -⟩ := Scopes.means_iff.1 means
  exact Scopes.lt_nextId_of_some found

theorem define_of_defines (defines : machine.Defines machine.current name.text value after) :
    Eval.define name value machine = .ok () after := by
  obtain ⟨scopes, defines, rfl⟩ := defines
  obtain ⟨-, rfl⟩ := Scopes.defines_iff.1 defines
  rfl

end Names

theorem UnaryOp.Yields.apply_eq {op : UnaryOp} {value : Value} {result : Except RuntimeFault Value}
    (yields : op.Yields value result) (line : Nat) :
    applyUnary op line value machine = (Final.ofExcept line machine result).lift := by
  cases yields with
  | negate => rfl
  | notNumber other =>
    cases value with
    | number x => exact absurd ⟨x, rfl⟩ other
    | _ => rfl
  | notFalsy falsy =>
    cases falsy with
    | nil => rfl
    | false => rfl
  | notTruthy truthy =>
    rw [Value.not_falsy_iff] at truthy
    simp only [applyUnary, truthy]
    rfl

theorem UnaryOp.exists_yields (op : UnaryOp) (value : Value) :
    ∃ result, op.Yields value result := by
  cases op with
  | not =>
    by_cases falsy : value.Falsy
    · exact ⟨_, .notFalsy falsy⟩
    · exact ⟨_, .notTruthy falsy⟩
  | negate =>
    cases value with
    | number x => exact ⟨_, .negate⟩
    | _ => exact ⟨_, .notNumber (by rintro ⟨x, ⟨⟩⟩)⟩

theorem onNumbers_of_not {left right : Value} (other : ¬ (left.IsNumber ∧ right.IsNumber))
    (line : Nat) (combine : Float → Float → Value) :
    Eval.onNumbers line left right combine machine =
      .error (.failure (.runtime line .operandsNotNumbers)) machine := by
  unfold Eval.onNumbers
  split
  · exact absurd ⟨⟨_, rfl⟩, ⟨_, rfl⟩⟩ other
  · rfl

theorem divide_of_not {left right : Value} (other : ¬ (left.IsNumber ∧ right.IsNumber))
    (line : Nat) :
    Eval.divide line left right machine =
      .error (.failure (.runtime line .operandsNotNumbers)) machine := by
  unfold Eval.divide
  split
  · exact absurd ⟨⟨_, rfl⟩, ⟨_, rfl⟩⟩ other
  · rfl

theorem BinaryOp.Yields.apply_eq {op : BinaryOp} {left right : Value}
    {result : Except RuntimeFault Value} (yields : op.Yields left right result) (line : Nat) :
    applyBinary op line left right machine = (Final.ofExcept line machine result).lift := by
  cases yields with
  | numbers on => cases on <;> rfl
  | divide nonzero =>
    simp only [applyBinary, Eval.divide, nonzero]
    rfl
  | divisionByZero zero =>
    simp only [applyBinary, Eval.divide, zero]
    rfl
  | notNumbers others other =>
    cases op with
    | add | equal | notEqual => exact absurd (by decide) others
    | divide => exact divide_of_not other line
    | _ => exact onNumbers_of_not other line _
  | add => rfl
  | join => rfl
  | notAddable noNumbers noStrings =>
    unfold applyBinary Eval.add
    split
    · exact absurd ⟨⟨_, rfl⟩, ⟨_, rfl⟩⟩ noNumbers
    · exact absurd ⟨⟨_, rfl⟩, ⟨_, rfl⟩⟩ noStrings
    · rfl
  | equal same | notUnequal same =>
    simp only [applyBinary, Value.equal_iff.1 same]
    rfl
  | unequal other | notEqual other =>
    have differ : left.equals right = false := by simpa using mt Value.equal_iff.2 other
    simp only [applyBinary, differ]
    rfl

theorem BinaryOp.exists_yields_equal (left right : Value) :
    (∃ result, BinaryOp.equal.Yields left right result) ∧
      ∃ result, BinaryOp.notEqual.Yields left right result := by
  by_cases same : left.Equal right
  · exact ⟨⟨_, .equal same⟩, ⟨_, .notUnequal same⟩⟩
  · exact ⟨⟨_, .unequal same⟩, ⟨_, .notEqual same⟩⟩

theorem BinaryOp.exists_yields (op : BinaryOp) (left right : Value) :
    ∃ result, op.Yields left right result := by
  by_cases numbers : left.IsNumber ∧ right.IsNumber
  · obtain ⟨⟨x, rfl⟩, ⟨y, rfl⟩⟩ := numbers
    cases op with
    | divide =>
      cases zero : y == 0 with
      | true => exact ⟨_, .divisionByZero zero⟩
      | false => exact ⟨_, .divide zero⟩
    | add => exact ⟨_, .add⟩
    | subtract => exact ⟨_, .numbers .subtract⟩
    | multiply => exact ⟨_, .numbers .multiply⟩
    | greater => exact ⟨_, .numbers .greater⟩
    | greaterEqual => exact ⟨_, .numbers .greaterEqual⟩
    | less => exact ⟨_, .numbers .less⟩
    | lessEqual => exact ⟨_, .numbers .lessEqual⟩
    | equal => exact (exists_yields_equal _ _).1
    | notEqual => exact (exists_yields_equal _ _).2
  · cases op with
    | add =>
      by_cases strings : left.IsString ∧ right.IsString
      · obtain ⟨⟨x, rfl⟩, ⟨y, rfl⟩⟩ := strings
        exact ⟨_, .join⟩
      · exact ⟨_, .notAddable numbers strings⟩
    | equal => exact (exists_yields_equal _ _).1
    | notEqual => exact (exists_yields_equal _ _).2
    | _ => exact ⟨_, .notNumbers (by decide) numbers⟩

theorem LogicalOp.needs_iff {op : LogicalOp} {left : Value} :
    op.Needs left ↔ ¬ op.isSettledBy left := by
  constructor
  · intro needs
    cases needs with
    | and truthy => simp [LogicalOp.isSettledBy, Value.not_falsy_iff.1 truthy]
    | or falsy => exact Value.falsy_iff.1 falsy
  · intro unsettled
    cases op with
    | and => exact .and (Value.not_falsy_iff.2 (by simpa [LogicalOp.isSettledBy] using unsettled))
    | or => exact .or (Value.falsy_iff.2 unsettled)

theorem asCallable_of_not {value : Value} (other : ∀ callable, value ≠ .callable callable)
    (line : Nat) :
    asCallable line value machine = .error (.failure (.runtime line .notCallable)) machine := by
  cases value with
  | callable callable => exact absurd rfl (other callable)
  | _ => rfl

theorem checkArity_of_takes {callable : Callable} {arguments : List Value}
    (takes : callable.Takes arguments.length) (line : Nat) :
    checkArity line callable arguments machine = .ok () machine := by
  rw [checkArity, if_pos (Callable.takes_iff.1 takes)]
  rfl

theorem checkArity_of_ne {callable : Callable} {arguments : List Value} {count : Nat}
    (takes : callable.Takes count) (mismatch : arguments.length ≠ count) (line : Nat) :
    checkArity line callable arguments machine =
      .error (.failure (.runtime line (.arityMismatch count arguments.length))) machine := by
  obtain rfl := Callable.takes_iff.1 takes
  rw [checkArity, if_neg mismatch]
  rfl

/-! ### Output -/

section Print

variable {text error : String} {written sink : Sink}

theorem print_of_takes (takes : machine.sink.Takes text written) (ended : written.Takes "\n" sink) :
    Eval.print text machine = .ok () { machine with sink } := by
  simp only [Eval.print, Sink.writeLine, Sink.takes_iff.1 takes, Sink.takes_iff.1 ended]

theorem print_of_refuses (refuses : machine.sink.Refuses text error) :
    Eval.print text machine = .error (.failure (.output error)) machine := by
  simp only [Eval.print, Sink.writeLine, Sink.refuses_iff.1 refuses]

theorem print_of_unended (takes : machine.sink.Takes text sink)
    (refuses : sink.Refuses "\n" error) :
    Eval.print text machine = .error (.failure (.output error)) { machine with sink } := by
  simp only [Eval.print, Sink.writeLine, Sink.takes_iff.1 takes, Sink.refuses_iff.1 refuses]

/-- Any text is taken or refused. -/
theorem Sink.takes_or_refuses (sink : Sink) (text : String) :
    (∃ after, sink.Takes text after) ∨ ∃ error, sink.Refuses text error := by
  cases written : sink.write text with
  | ok after => exact .inl ⟨after, Sink.takes_iff.2 written⟩
  | error error => exact .inr ⟨error, Sink.refuses_iff.2 written⟩

end Print

/-! ### Native functions -/

theorem Native.HasContent.withoutLineEnd_eq {line content : String}
    (has : HasContent line.toList content.toList) : withoutLineEnd line = content := by
  rw [← String.ofList_toList (s := content)]
  unfold withoutLineEnd
  generalize line.toList = chars at has ⊢
  generalize content.toList = kept at has ⊢
  cases has with
  | full => simp
  | feed plain =>
    obtain rfl | ⟨front, last, rfl⟩ := List.eq_nil_or_concat kept
    · simp
    · have other : last ≠ '\r' := by simpa using plain
      simp [other]
  | carriage => simp
  | @bare chars noCarriage noFeed =>
    obtain rfl | ⟨front, last, rfl⟩ := List.eq_nil_or_concat chars
    · simp
    · have noCarriage : last ≠ '\r' := by simpa using noCarriage
      have noFeed : last ≠ '\n' := by simpa using noFeed
      simp [noCarriage, noFeed]

theorem Native.exists_hasContent (line : List Char) : ∃ content, HasContent line content := by
  obtain rfl | ⟨front, last, rfl⟩ := List.eq_nil_or_concat line
  · exact ⟨[], .bare (by simp) (by simp)⟩
  rw [List.concat_eq_append]
  by_cases feed : last = '\n'
  · subst feed
    by_cases carriage : front.getLast? = some '\r'
    · obtain ⟨rest, rfl⟩ := List.getLast?_eq_some_iff.1 carriage
      rw [List.append_assoc]
      exact ⟨rest, .full⟩
    · exact ⟨front, .feed carriage⟩
  · by_cases carriage : last = '\r'
    · subst carriage
      exact ⟨front, .carriage⟩
    · exact ⟨front ++ [last], .bare (by simpa using carriage) (by simpa using feed)⟩

theorem Native.Yields.invoke_eq {primitive : Native} {arguments : List Value}
    {result : Except RuntimeFault Value} {after : Machine}
    (yields : primitive.Yields machine arguments result after) (line : Nat) :
    primitive.invoke line arguments machine = (Final.ofExcept line after result).lift := by
  cases yields with
  | clock tells =>
    simp only [Native.invoke, readClock, Clock.tells_iff.1 tells]
    rfl
  | clockFails tells =>
    simp only [Native.invoke, readClock, Clock.tells_iff.1 tells]
    rfl
  | line reads has =>
    simp only [Native.invoke, readLine, (Source.reads_iff.1 reads).2, has.withoutLineEnd_eq]
    rfl
  | ended reads =>
    simp only [Native.invoke, readLine, (Source.reads_iff.1 reads).2]
    rfl
  | inputFails reads =>
    simp only [Native.invoke, readLine, (Source.reads_iff.1 reads).2]
    rfl
  | number => rfl
  | numeral denotes =>
    simp only [Native.invoke, List.headD_cons, toNumber, Numeral.read?_eq_some_iff.2 denotes]
    rfl
  | noNumeral never =>
    have unread :=
      Option.eq_none_iff_forall_ne_some.2 fun x => mt Numeral.read?_eq_some_iff.1 (never x)
    simp only [Native.invoke, List.headD_cons, toNumber, unread]
    rfl
  | notNumeric noNumber noString displays =>
    obtain rfl := Value.displays_iff.1 displays
    simp only [Native.invoke, List.headD_cons]
    unfold toNumber
    split
    · exact absurd ⟨_, rfl⟩ noNumber
    · exact absurd ⟨_, rfl⟩ noString
    · rfl

theorem Native.exists_yields {primitive : Native} {line : Nat} {arguments : List Value}
    (arity : arguments.length = primitive.arity)
    (ended : Ended (primitive.invoke line arguments machine)) :
    ∃ result after, primitive.Yields machine arguments result after := by
  cases primitive with
  | clock =>
    obtain rfl := List.eq_nil_of_length_eq_zero arity
    cases told : machine.clock.read.1 with
    | ok time => exact ⟨_, _, .clock (Clock.tells_iff.2 told)⟩
    | error error => exact ⟨_, _, .clockFails (Clock.tells_iff.2 told)⟩
  | input =>
    obtain rfl := List.eq_nil_of_length_eq_zero arity
    cases read : machine.source.read with
    | mk reading source =>
      cases reading with
      | line text =>
        obtain ⟨content, has⟩ := exists_hasContent text.toList
        rw [← String.toList_ofList (l := content)] at has
        exact ⟨_, _, .line (Source.reads_iff.2 ⟨nofun, read⟩) has⟩
      | ended => exact ⟨_, _, .ended (Source.reads_iff.2 ⟨nofun, read⟩)⟩
      | failed error => exact ⟨_, _, .inputFails (Source.reads_iff.2 ⟨nofun, read⟩)⟩
      | pending =>
        simp only [Native.invoke, readLine, read] at ended
        exact absurd rfl (ended _)
  | number =>
    obtain ⟨value, rfl⟩ := List.length_eq_one_iff.1 arity
    cases value with
    | number x => exact ⟨_, _, .number⟩
    | string text =>
      by_cases numeric : ∃ x, Numeral.Denotes text x
      · obtain ⟨x, denotes⟩ := numeric
        exact ⟨_, _, .numeral denotes⟩
      · exact ⟨_, _, .noNumeral (not_exists.1 numeric)⟩
    | _ =>
      exact ⟨_, _, .notNumeric (by rintro ⟨x, ⟨⟩⟩) (by rintro ⟨x, ⟨⟩⟩) (Value.displays_iff.2 rfl)⟩

end Acts

end Lox
