import Lox.Proofs.Machine.Clauses
import Lox.Proofs.Machine.Store

/-!
# Values, names and streams keep to the clauses

What is computed of values, names and streams is what the clauses say of them: each clause holds of
what the function gives, and of nothing else.
-/

namespace Lox

/-! ## Values -/

theorem Literal.denotes_iff {literal : Literal} {value : Value} :
    literal.Denotes value ↔ value = .ofLiteral literal := by
  constructor
  · intro denotes
    cases denotes <;> rfl
  · rintro rfl
    cases literal with
    | nil => exact .nil
    | bool value => exact .bool
    | number x => exact .number
    | string text => exact .string

namespace Value

theorem falsy_iff {value : Value} : value.Falsy ↔ ¬ value.isTruthy := by
  constructor
  · intro falsy
    cases falsy <;> exact Bool.false_ne_true
  · intro untrue
    cases value with
    | nil => exact .nil
    | bool value =>
      cases value with
      | false => exact .false
      | true => exact absurd rfl untrue
    | number x | string text | callable callable => exact absurd rfl untrue

theorem not_falsy_iff {value : Value} : ¬ value.Falsy ↔ value.isTruthy := by
  rw [falsy_iff, Classical.not_not]

theorem Equal.equals_eq {left right : Value} (equal : left.Equal right) : left.equals right := by
  cases equal with
  | nil => rfl
  | bool => exact beq_self_eq_true _
  | number same => exact Bool.or_eq_true_iff.2 (.inr same)
  | nan first second => exact Bool.or_eq_true_iff.2 (.inl (Bool.and_eq_true_iff.2 ⟨first, second⟩))
  | string => exact beq_self_eq_true _
  | function same => exact beq_iff_eq.2 same
  | native => exact beq_self_eq_true _

theorem equal_of_equals {left right : Value} (same : left.equals right) : left.Equal right := by
  unfold equals at same
  split at same
  · exact .nil
  · cases beq_iff_eq.1 same
    exact .bool
  · rcases Bool.or_eq_true_iff.1 same with both | same
    · obtain ⟨first, second⟩ := Bool.and_eq_true_iff.1 both
      exact .nan first second
    · exact .number same
  · cases beq_iff_eq.1 same
    exact .string
  · unfold Callable.equals at same
    split at same
    · exact .function (beq_iff_eq.1 same)
    · cases beq_iff_eq.1 same
      exact .native
    · cases same
  · cases same

theorem equal_iff {left right : Value} : left.Equal right ↔ left.equals right :=
  ⟨Equal.equals_eq, equal_of_equals⟩

theorem displays_iff {value : Value} {shown : String} :
    value.Displays shown ↔ shown = value.text := by
  constructor
  · intro displays
    cases displays with
    | number shows => exact Numeral.shows_iff.1 shows
    | _ => rfl
  · rintro rfl
    cases value with
    | nil => exact .nil
    | bool value =>
      cases value with
      | true => exact .true
      | false => exact .false
    | number x => exact .number (Numeral.shows_iff.2 rfl)
    | string text => exact .string
    | callable callable =>
      cases callable with
      | function closure => exact .function
      | native primitive => exact .native

end Value

theorem Callable.takes_iff {callable : Callable} {count : Nat} :
    callable.Takes count ↔ count = callable.arity := by
  constructor
  · intro takes
    cases takes <;> rfl
  · rintro rfl
    cases callable with
    | function closure => exact .function
    | native primitive =>
      cases primitive with
      | clock => exact .clock
      | input => exact .input
      | number => exact .number

/-! ## Names -/

namespace Bindings

variable {name : String} {value : Value} {bindings after : Bindings}

theorem maps_iff : bindings.Maps name value ↔ bindings.get? name = some value := by
  unfold get?
  induction bindings with
  | nil =>
    rw [List.lookup_nil]
    exact ⟨nofun, nofun⟩
  | cons binding rest ih =>
    obtain ⟨first, old⟩ := binding
    rw [List.lookup_cons]
    by_cases same : name = first
    · subst same
      rw [beq_self_eq_true]
      constructor
      · intro maps
        cases maps with
        | here => rfl
        | later other _ => exact absurd rfl other
      · intro found
        cases found
        exact .here
    · rw [beq_false_of_ne same]
      constructor
      · intro maps
        cases maps with
        | here => exact absurd rfl same
        | later _ later => exact ih.1 later
      · intro found
        exact .later (Ne.symm same) (ih.2 found)

theorem binds_iff : bindings.binds name ↔ ∃ value, bindings.Maps name value := by
  simp only [binds, maps_iff, Option.isSome_iff_exists]

theorem sets_iff : bindings.Sets name value after ↔ after = bindings.insert name value := by
  constructor
  · intro sets
    induction sets with
    | new => rfl
    | again => rw [insert, if_pos rfl]
    | later other _ ih => rw [insert, if_neg other, ih]
  · rintro rfl
    induction bindings with
    | nil => exact .new
    | cons binding rest ih =>
      obtain ⟨first, old⟩ := binding
      rw [insert]
      split
      next same =>
        subst same
        exact .again
      next other => exact .later other ih

theorem setsAll_iff_foldl {params : List Lexeme} {arguments : List Value} :
    SetsAll params arguments bindings after ↔ params.length = arguments.length ∧
      after = (params.zip arguments).foldl (fun bindings pair => bindings.insert pair.1.text pair.2)
        bindings := by
  constructor
  · intro sets
    induction sets with
    | nil => exact ⟨rfl, rfl⟩
    | cons first _ ih =>
      obtain ⟨length, rfl⟩ := ih
      obtain rfl := sets_iff.1 first
      exact ⟨congrArg Nat.succ length, rfl⟩
  · rintro ⟨length, rfl⟩
    induction params generalizing arguments bindings with
    | nil =>
      obtain rfl := List.eq_nil_of_length_eq_zero length.symm
      exact .nil
    | cons param params ih =>
      cases arguments with
      | nil => cases length
      | cons argument arguments => exact .cons (sets_iff.2 rfl) (ih (Nat.succ.inj length))

/-- Parameters are bound to as many arguments. -/
theorem setsAll_iff {params : List Lexeme} {arguments : List Value} :
    SetsAll params arguments [] after ↔
      params.length = arguments.length ∧ after = .ofArguments params arguments :=
  setsAll_iff_foldl

end Bindings

namespace Scopes

variable {scopes after : Scopes} {name : String} {value : Value} {id target : ScopeId}

theorem means_iff : scopes.Means name value id target ↔ scopes.Finds name id target ∧
    ∃ scope, scopes.cells[target]? = some scope ∧ scope.bindings.get? name = some value := by
  constructor
  · intro means
    induction means with
    | here found maps =>
      exact ⟨.here found (Bindings.binds_iff.2 ⟨value, maps⟩), _, found, Bindings.maps_iff.1 maps⟩
    | outwards found free link _ ih =>
      exact ⟨.outwards found (mt Bindings.binds_iff.1 (not_exists.2 free)) link ih.1, ih.2⟩
  · rintro ⟨finds, scope, foundTarget, bound⟩
    induction finds with
    | here found _ =>
      rw [found] at foundTarget
      cases foundTarget
      exact .here found (Bindings.maps_iff.2 bound)
    | outwards found free link _ ih =>
      exact .outwards found (not_exists.1 (mt Bindings.binds_iff.2 free)) link (ih foundTarget)

theorem exists_means_iff :
    (∃ value, scopes.Means name value id target) ↔ scopes.Finds name id target := by
  constructor
  · rintro ⟨value, means⟩
    exact (means_iff.1 means).1
  · intro finds
    obtain ⟨scope, value, found, bound⟩ := finds.exists_get?
    exact ⟨value, means_iff.2 ⟨finds, scope, found, bound⟩⟩

theorem define_eq {scope : Scope} (found : scopes.cells[id]? = some scope) (name : String)
    (value : Value) :
    scopes.define id name value =
      ⟨scopes.cells.setIfInBounds id
        { scope with bindings := scope.bindings.insert name value }⟩ := by
  apply congrArg Scopes.mk
  apply Array.ext_getElem?
  intro other
  rw [Array.getElem?_modify, Array.getElem?_setIfInBounds]
  split
  next same =>
    subst same
    rw [found]
    exact (if_pos (lt_nextId_of_some found)).symm
  next => rfl

theorem defines_iff : scopes.Defines id name value after ↔
    id < scopes.nextId ∧ after = scopes.define id name value := by
  constructor
  · rintro ⟨found, sets⟩
    obtain rfl := Bindings.sets_iff.1 sets
    exact ⟨lt_nextId_of_some found, (define_eq found name value).symm⟩
  · rintro ⟨existing, rfl⟩
    obtain ⟨scope, found⟩ := exists_of_lt_nextId existing
    rw [define_eq found]
    exact .intro found (Bindings.sets_iff.2 rfl)

end Scopes

/-! ## Input, output and time -/

theorem Source.reads_iff {source after : Source} {reading : Reading} :
    source.Reads reading after ↔ reading ≠ .pending ∧ source.read = (reading, after) := by
  constructor
  · intro reads
    cases reads <;> exact ⟨nofun, rfl⟩
  · rintro ⟨known, read⟩
    obtain ⟨lines, ending⟩ := source
    cases lines with
    | cons line rest =>
      cases line <;> cases read
      · exact .line
      · exact .malformed
    | nil =>
      cases ending <;> cases read
      · exact .ended
      · exact .failing
      · exact absurd rfl known

namespace Sink

variable {sink after : Sink} {text error : String}

theorem takes_iff : sink.Takes text after ↔ sink.write text = .ok after := by
  constructor
  · intro takes
    cases takes with
    | unlimited => rfl
    | @limited before text error lines room =>
      have free : (lines = 0 && !text.isEmpty) = false := by
        rcases room with some | none
        · simp [Nat.pos_iff_ne_zero.1 some]
        · simp [none]
      simp only [write, free]
      rfl
  · intro written
    obtain ⟨before, limit⟩ := sink
    cases limit with
    | none =>
      cases written
      exact .unlimited
    | some limit =>
      simp only [write] at written
      split at written
      next => cases written
      next free =>
        cases written
        refine .limited ?_
        simp only [Bool.and_eq_true, decide_eq_true_eq, Bool.not_eq_true', not_and,
          Bool.not_eq_false, String.isEmpty_iff] at free
        exact (Nat.eq_zero_or_pos limit.lines).symm.imp id free

theorem refuses_iff : sink.Refuses text error ↔ sink.write text = .error error := by
  constructor
  · rintro ⟨some⟩
    simp [write, some]
  · intro refused
    obtain ⟨before, limit⟩ := sink
    cases limit with
    | none => cases refused
    | some limit =>
      simp only [write] at refused
      split at refused
      next full =>
        cases refused
        simp only [Bool.and_eq_true, decide_eq_true_eq, Bool.not_eq_true',
          String.isEmpty_eq_false_iff] at full
        obtain ⟨lines, error⟩ := limit
        obtain ⟨rfl, some⟩ := full
        exact .full some
      next => cases refused

end Sink

theorem Clock.tells_iff {clock : Clock} {time : Except String Float} :
    clock.Tells time ↔ clock.read.1 = time := by
  unfold Clock.read
  constructor
  · intro tells
    cases tells with
    | time none => simp only [none]
    | early some => simp only [some]
  · rintro rfl
    cases early : clock.early clock.readings with
    | none => exact .time early
    | some error => exact .early early

/-! ## Failures -/

theorem RuntimeFault.says_iff {fault : RuntimeFault} {message : String} :
    fault.Says message ↔ message = fault.message := by
  constructor
  · intro said
    cases said <;> rfl
  · rintro rfl
    cases fault <;> constructor

theorem Failure.reports_iff {failure : Failure} {report : Diagnostic} :
    failure.Reports report ↔ report = failure.diagnostic := by
  constructor
  · intro reports
    cases reports with
    | runtime said =>
      rw [RuntimeFault.says_iff.1 said]
      rfl
    | output => rfl
  · rintro rfl
    cases failure with
    | runtime line fault => exact .runtime (RuntimeFault.says_iff.2 rfl)
    | output error => exact .output

end Lox
