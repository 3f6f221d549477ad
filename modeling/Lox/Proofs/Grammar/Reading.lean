import Lox.Proofs.Grammar.Lookahead
import Lox.Proofs.Grammar.Yield

/-!
# The rules of the grammar look one token ahead

Each rule reads with one token of lookahead if the rules that it is made of do.

* `readsAt_recovering`: a declaration that is dropped is dropped the same way before another rest,
  so recovery needs no more lookahead than parsing does.
* `reads_level`, `reads_expression`: what may follow an expression is what would not continue it.
* `reads_statement`: what may follow a statement is anything but an `else`.
-/

namespace Lox

namespace Grammar

open Lox.Parser

/-! ## Recovery -/

theorem afterFault_of_semicolon {t : Token} (semicolon : t.kind = .semicolon) (rest : List Token) :
    afterFault (t :: rest) = rest := by
  simp only [afterFault, semicolon, if_true]

theorem afterFault_singleton (t : Token) : afterFault [t] = [] := by
  simp only [afterFault, ite_self]

theorem afterFault_of_starts {t next : Token} (other : t.kind ≠ .semicolon)
    (starts : next.kind.startsDeclaration = true) (rest : List Token) :
    afterFault (t :: next :: rest) = next :: rest := by
  rw [afterFault]
  simp only [other, starts, if_true, if_false]

theorem afterFault_of_skipped {t next : Token} (other : t.kind ≠ .semicolon)
    (skipped : next.kind.startsDeclaration = false) (rest : List Token) :
    afterFault (t :: next :: rest) = afterFault (next :: rest) := by
  rw [afterFault]
  simp only [other, skipped, Bool.false_eq_true, if_false]

/-- What was dropped is dropped again before the same token. -/
theorem afterFault_append {rest dropped others : List Token}
    (split : rest = dropped ++ afterFault rest) (head : others.head? = (afterFault rest).head?) :
    afterFault (dropped ++ others) = others := by
  induction rest generalizing dropped with
  | nil =>
    obtain ⟨rfl, -⟩ := List.append_eq_nil_iff.mp split.symm
    rw [List.head?_eq_none_iff.mp head]
    rfl
  | cons t rest ih =>
    obtain ⟨dropped, rfl⟩ : ∃ more, dropped = t :: more := by
      have shorter := length_afterFault_lt (List.cons_ne_nil t rest)
      cases dropped with
      | nil =>
        rw [List.nil_append] at split
        rw [← split] at shorter
        exact absurd shorter (Nat.lt_irrefl _)
      | cons first dropped => exact ⟨dropped, by rw [(List.cons.inj split).1]⟩
    have splitRest : rest = dropped ++ afterFault (t :: rest) := (List.cons.inj split).2
    by_cases semicolon : t.kind = .semicolon
    · rw [afterFault_of_semicolon semicolon] at splitRest
      rw [List.self_eq_append_left.mp splitRest]
      exact afterFault_of_semicolon semicolon others
    · cases rest with
      | nil =>
        obtain ⟨rfl, -⟩ := List.append_eq_nil_iff.mp splitRest.symm
        rw [afterFault_singleton] at head
        rw [List.head?_eq_none_iff.mp head]
        exact afterFault_singleton t
      | cons next rest =>
        cases starts : next.kind.startsDeclaration with
        | true =>
          rw [afterFault_of_starts semicolon starts] at splitRest head
          rw [List.self_eq_append_left.mp splitRest]
          obtain ⟨us, rfl⟩ := List.head?_eq_some_iff.mp head
          exact afterFault_of_starts semicolon starts us
        | false =>
          rw [afterFault_of_skipped semicolon starts] at splitRest head
          have again := ih splitRest head
          cases dropped with
          | nil =>
            have shorter := length_afterFault_lt (List.cons_ne_nil next rest)
            rw [List.nil_append] at splitRest
            rw [← splitRest] at shorter
            exact absurd shorter (Nat.lt_irrefl _)
          | cons first dropped =>
            obtain ⟨rfl, -⟩ := List.cons.inj splitRest
            exact (afterFault_of_skipped semicolon starts (dropped ++ others)).trans again

theorem log_recovering (statement : Parser Stmt) (ts : List Token) :
    (recovering statement ts).log = (statement ts).log := by
  cases replied : (statement ts).reply with
  | done value rest => rw [recovering_of_done replied, Outcome.log_of_done replied]; rfl
  | abort fault rest => rw [recovering_of_abort replied, Outcome.log_of_abort replied]; rfl


/-- What does not pass has met a fault that stops something. -/
theorem exists_stop_of_fault {α : Type} {p : Parser α} {ts : List Token}
    (faulty : p.FaultInside ts ∨ p.FaultAtEnd ts) : ∃ r ∈ (p ts).log, r.fault.stops = true := by
  rcases faulty with ⟨taken, t, others, rfl, early, fault, -, stops, logged⟩ |
    ⟨-, early, fault, more, -, stops, logged⟩
  · obtain ⟨more, log⟩ := logged others
    exact ⟨⟨some t, fault⟩, by
      rw [log]; exact List.mem_append_right early List.mem_cons_self, stops⟩
  · exact ⟨⟨none, fault⟩, by
      rw [logged]; exact List.mem_append_right early List.mem_cons_self, stops⟩

section Recovering

variable {Exit : List Token → Prop} {statement : Parser Stmt} {ts rest : List Token}
    {fault : SyntaxFault}

/-- A statement that was dropped did not pass. -/
theorem not_passes_recovering (reads : ReadsAt Exit statement ts)
    (replied : (statement ts).reply = .abort fault rest) : ¬ (recovering statement ts).Passes := by
  intro ⟨value, left, done, mild⟩
  have faulty : statement.FaultInside ts ∨ statement.FaultAtEnd ts := by
    rcases reads.decided with ⟨value, last, other, -⟩ | inside | ⟨atEnd, -⟩
    · rw [replied] at other
      cases other
    · exact .inl inside
    · exact .inr atEnd
  obtain ⟨r, mem, stops⟩ := exists_stop_of_fault faulty
  rw [← log_recovering, Outcome.log_of_done done] at mem
  rw [(mild r mem).2] at stops
  cases stops

/-- What a dropped statement leaves decides, as what it stopped at did. -/
theorem recovering_replays {taken dropped others : List Token}
    (replays : ∀ others, Follows Exit (statement ts) others →
      statement (taken ++ others) = (statement ts).before others)
    (replied : (statement ts).reply = .abort fault rest) (split : rest = dropped ++ afterFault rest)
    (head : others.head? = (afterFault rest).head?) :
    recovering statement (taken ++ (dropped ++ others)) =
      (recovering statement ts).before others := by
  have sameHead : (dropped ++ others).head? = rest.head? := by
    rw [split, List.head?_append, List.head?_append, head]
  have replayed :=
    replays (dropped ++ others) (.inl (by rw [Outcome.rest_of_abort replied, sameHead]))
  rw [Outcome.before_of_abort replied] at replayed
  have again : (statement (taken ++ (dropped ++ others))).reply =
      .abort fault (dropped ++ others) := by rw [replayed]
  rw [recovering_of_abort again, recovering_of_abort replied, replayed, sameHead,
    afterFault_append split head]
  rfl

theorem readsAt_recovering (reads : ReadsAt Exit statement ts) :
    ReadsAt Exit (recovering statement) ts := by
  have decided : (recovering statement ts).Passes ∨ (recovering statement).FaultInside ts ∨
      ((recovering statement).FaultAtEnd ts ∧ (recovering statement).Completes Exit ts) := by
    rcases reads.decided with ⟨value, rest, passes⟩ | ⟨taken, t, others, split, blames⟩ |
      ⟨⟨ended, faults⟩, completes⟩
    · refine .inl ⟨some value, rest, ?_⟩
      rw [recovering_of_done passes.1]
      exact ⟨rfl, passes.2⟩
    · refine .inr (.inl ⟨taken, t, others, split, ?_⟩)
      exact blames.of_log (b := []) fun others => ⟨[], by rw [List.append_nil, log_recovering]; rfl⟩
    · refine .inr (.inr ⟨⟨?_, by rw [log_recovering]; exact faults⟩, ?_⟩)
      · cases replied : (statement ts).reply with
        | done value rest =>
          rw [recovering_of_done replied, ← ended, Outcome.rest_of_done replied]
          rfl
        | abort fault rest =>
          obtain rfl := (Outcome.rest_of_abort replied).symm.trans ended
          rw [recovering_of_abort replied]
          rfl
      · obtain ⟨filling, value, endless, filled⟩ := completes
        refine ⟨filling, some value, endless, fun others exit => ?_⟩
        have passes := filled others exit
        rw [recovering_of_done passes.1]
        exact ⟨rfl, passes.2⟩
  obtain ⟨taken, split, replays⟩ := reads.replays
  cases replied : (statement ts).reply with
  | done value rest =>
    have left := Outcome.rest_of_done replied
    have recovered := recovering_of_done replied
    have recoveredRest : (recovering statement ts).rest = (statement ts).rest := by
      rw [recovered, left]; rfl
    refine ⟨⟨taken, by rw [recoveredRest]; exact split, fun others follows => ?_⟩, ?_, decided⟩
    · have follows : Follows Exit (statement ts) others := by
        rcases follows with head | ⟨⟨last, final, done, mild⟩, exit⟩
        · exact .inl (recoveredRest ▸ head)
        · rw [recovered] at mild
          exact .inr ⟨⟨value, rest, replied, mild⟩, exit⟩
      have replayed := replays others follows
      rw [Outcome.before_of_done replied] at replayed
      have again : (statement (taken ++ others)).reply = .done value others := by rw [replayed]
      rw [recovering_of_done again, recovered, replayed]
      rfl
    · rw [recoveredRest, recovered]
      exact reads.placed
  | abort fault rest =>
    have left := Outcome.rest_of_abort replied
    have recovered := recovering_of_abort replied
    have recoveredRest : (recovering statement ts).rest = afterFault rest := by rw [recovered]; rfl
    obtain ⟨dropped, splitRest⟩ := afterFault_suffix rest
    refine ⟨⟨taken ++ dropped, ?_, fun others follows => ?_⟩, fun nonempty => ?_, decided⟩
    · rw [recoveredRest, List.append_assoc, splitRest, ← left]
      exact split
    · rw [List.append_assoc]
      refine recovering_replays replays replied splitRest.symm ?_
      rcases follows with head | ⟨passes, -⟩
      · rw [recoveredRest] at head
        exact head
      · exact absurd passes (not_passes_recovering reads replied)
    · obtain ⟨t, us, rfl⟩ : ∃ t us, rest = t :: us := by
        cases rest with
        | nil => rw [recoveredRest] at nonempty; exact absurd rfl nonempty
        | cons t us => exact ⟨t, us, rfl⟩
      have placed := reads.placed (by rw [left]; exact List.cons_ne_nil t us)
      rw [recovered]
      intro r mem
      rcases List.mem_append.mp mem with mem | mem
      · exact placed r mem
      · rw [List.mem_singleton.mp mem]
        rfl

end Recovering

/-! ## Expressions -/

theorem ampleLevel_nil (level : Level) : ampleLevel level [] = .abort .expressionExpected [] := by
  cases level <;> rfl

theorem wants_level (level : Level) : (ampleLevel level).Wants :=
  ⟨.expressionExpected, rfl, ampleLevel_nil level⟩

theorem wants_expression : ampleExpression.Wants := ⟨.expressionExpected, rfl, rfl⟩

/-- The word `nil` is an expression of every level. -/
theorem ampleLevel_nilWord {level : Level} (word : Word .nil) {others : List Token}
    (stops : level.Stops others) :
    ampleLevel level (word.token :: others) = .done (.literal .nil) others := by
  have derives := (Phrase.Derives.nil word).loosen level.tightness_le
  have found : FoundAt level (.literal .nil) [word.token] := derives.found
  exact found.complete (Nat.le_add_left 1 (word.token :: others).length) stops

/-- Some word `nil`. -/
def nilWord : Word .nil := ⟨⟨default, .nil⟩, rfl⟩

/-- Where an expression is wanted, `nil` can be filled in. -/
theorem fills_level (level : Level) : (ampleLevel level).Fills Anything level.Stops := by
  have endless : Endless [nilWord.token] := endless_singleton Kind.noConfusion
  refine ⟨[nilWord.token], .literal .nil, endless, fun others stops => ⟨trivial, ?_⟩⟩
  rw [List.singleton_append, ampleLevel_nilWord nilWord stops]
  exact Outcome.passesTo_done _ others

theorem stops_of_isNext {level : Level} {kind : Kind} (ends : Level.ends kind = true)
    {others : List Token} (next : isNext kind others = true) : level.Stops others := by
  cases others with
  | nil => cases next
  | cons t others => exact Level.stops_of_ends (by rw [isNext_cons.mp next]; exact ends)

section Expression

variable {bound : Nat} (expressions : Reads bound Anything Level.assignment.Stops ampleExpression)

include expressions

theorem reads_groupingRest : Reads bound Anything Anything (groupingRest ampleExpression) :=
  expressions.thenRequire (fun _ _ kind => Level.stops_of_ends (by rw [kind]; rfl))
    (fun inner _ => reads_pure _)
    fun _ _ => shrinks_pure _

theorem reads_primary : Reads (bound + 1) Anything Level.primary.Stops (ampleLevel .primary) := by
  refine ⟨fun ts within => ?_, fills_level .primary⟩
  cases ts with
  | nil => exact (wants_level .primary).readsAt (fills_level .primary).completes
  | cons t ws =>
    rw [ampleLevel_primary]
    have taking : ∀ value : Expr, (∀ ws, primary ampleExpression (t :: ws) = .done value ws) →
        ReadsAt Level.primary.Stops (primary ampleExpression) (t :: ws) := fun value takes =>
      ((reads_pure value).reading ws (Nat.lt_succ_self _)).cons takes
    have refusing :
        (∀ ws, primary ampleExpression (t :: ws) = .abort .expressionExpected (t :: ws)) →
        ReadsAt Level.primary.Stops (primary ampleExpression) (t :: ws) :=
          fun refuses => readsAt_refuse rfl refuses ws
    cases kind : t.kind with
    | nil => exact taking (.literal .nil) fun ws => by simp only [primary, kind]
    | «true» => exact taking (.literal (.bool true)) fun ws => by simp only [primary, kind]
    | «false» => exact taking (.literal (.bool false)) fun ws => by simp only [primary, kind]
    | number value => exact taking (.literal (.number value)) fun ws => by simp only [primary, kind]
    | string value => exact taking (.literal (.string value)) fun ws => by simp only [primary, kind]
    | identifier => exact taking (.variable t.toLexeme) fun ws => by simp only [primary, kind]
    | leftParen =>
      have inner := (reads_groupingRest expressions).reading ws (Nat.lt_of_succ_lt_succ within)
      exact (inner.mono fun _ _ => trivial).cons fun ws => by simp only [primary, kind]
    | _ => exact refusing fun ws => by simp only [primary, kind]

theorem reads_argument (count : Nat) :
    Reads bound Anything Level.assignment.Stops (argument ampleExpression count) :=
  expressions.onlyIf_reportHere ampleExpression_consumes wants_expression rfl _

theorem reads_arguments :
    Reads bound Anything (isNext .rightParen · = true) (separatedAll (argument ampleExpression)) :=
  reads_separatedAll (reads_argument expressions)
    (fun _ => (shrinks_onlyIf (shrinks_reportHere _)).bind_takes fun _ => ampleExpression_consumes)
    (fun _ next => stops_of_isNext rfl next) wants_expression

omit expressions in
theorem ampleStep_of_stops {level : Level} {rest : List Token} (stops : level.Stops rest)
    (loops : level.loops = true) (tree : Expr) : ampleStep level tree rest = none :=
  (ampleStep_eq_stepAt level tree (Nat.le_refl _)).trans (stepAt_of_stops stops loops tree)

/-- A level with a loop reads if its operands and the steps of its loop do. -/
theorem reads_loop {level : Level} (loops : level.loops = true)
    (operands : Reads (bound + 1) Anything level.next.Stops (ampleLevel level.next)) :
    Reads (bound + 1) Anything level.Stops (ampleLevel level) := by
  rw [ampleLevel_loop loops]
  have exits : ∀ others, level.Stops others → level.next.Stops others := fun _ stops => stops.next
  refine operands.bind (fun value => Reads.enter ?_ exits) (.inl exits)
  refine reads_chainAll (ampleStep_nil level) (fun t => ?_)
    (fun _ _ _ found => ampleStep_consumes found)
    (fun value _ stops => ampleStep_of_stops stops loops value) value
  by_cases calls : level = .call
  · subst calls
    by_cases opens : t.kind = .leftParen
    · refine .inr ⟨_, ampleStep_call opens, fun callee ws within => ?_⟩
      have call :
          Reads bound Anything Anything
            (separatedAll (argument ampleExpression) >>= fun arguments =>
          require .parenAfterArguments >>= fun paren => pure (Expr.call callee paren arguments)) :=
        (reads_arguments expressions).thenRequire (fun _ _ kind => isNext_cons.mpr kind)
          (fun _ _ => reads_pure _)
          fun _ _ => shrinks_pure _
      exact (call.reading ws (Nat.lt_of_succ_lt_succ within)).mono fun _ _ => trivial
    · exact .inl fun callee ws => by simp only [ampleStep, call?, opens, if_false]
  · rw [ampleStep_of_ne_call calls]
    cases found : Operator.ofKind? t.kind with
    | none => exact .inl fun left ws => by simp only [operation?, found]
    | some op =>
      by_cases rank : op.rank = level.rank
      · refine .inr ⟨fun left => .operation left op t.toLexeme <$> ampleLevel level.next,
          fun left ws => ?_, fun left ws within => ?_⟩
        · simp only [operation?, found, rank, if_true]
          rfl
        · exact ((operands.map _).reading ws (Nat.lt_of_succ_lt within)).mono exits
      · exact .inl fun left ws => by simp only [operation?, found, rank, if_false]

omit expressions in
/-- Operators before an operand: each of them is taken, and what is left is read the same way. -/
theorem reads_unary (operands : Reads (bound + 1) Anything Level.call.Stops (ampleLevel .call)) :
    Reads (bound + 1) Anything Level.unary.Stops (ampleLevel .unary) := by
  refine ⟨fun ts within => ?_, fills_level .unary⟩
  induction ts with
  | nil => exact (wants_level .unary).readsAt (fills_level .unary).completes
  | cons t ws ih =>
    cases found : UnaryOp.ofKind? t.kind with
    | some op =>
      have operand := (ih (Nat.lt_of_succ_lt within)).map (Expr.unary op t.toLexeme)
      exact operand.cons (ampleLevel_unary_operator found)
    | none =>
      have exits : ∀ others, Level.unary.Stops others → Level.call.Stops others :=
        fun _ stops => stops.next
      have operand := (operands.reading (t :: ws) within).mono exits
      exact operand.sameHead (ampleLevel_unary_operand found) (ampleLevel_consumes .call (t :: ws))

omit expressions in
theorem reads_assignTo (target : Expr) (equal : Token) (value : Expr) :
    Reads bound Level.assignment.Stops Level.assignment.Stops (assignTo target equal value) := by
  cases target with
  | «variable» name => exact reads_pure _
  | _ => exact (reads_reportAt rfl).bind (fun _ => reads_pure _) (.inl fun _ stops => stops)

theorem reads_assignment (operands : Reads (bound + 1) Anything Level.or.Stops (ampleLevel .or)) :
    Reads (bound + 1) Anything Level.assignment.Stops (ampleLevel .assignment) := by
  rw [ampleLevel_assignment]
  have exits : ∀ others, Level.assignment.Stops others → Level.or.Stops others :=
    fun _ stops => stops.next
  have other : ∀ {target : Expr} {others : List Token}, isNext .equal others = false →
      assignmentRest ampleExpression target others = .done target others := by
    intro target others other
    cases others with
    | nil => rfl
    | cons t others => simp only [assignmentRest, beq_eq_false_iff_ne.mp other, if_false]
  have ended : ∀ others, Level.assignment.Stops others → isNext .equal others = false := by
    intro others stops
    cases others with
    | nil => rfl
    | cons t others =>
      exact beq_eq_false_iff_ne.mpr fun equal => stops t others rfl (.inr (.inr ⟨rfl, equal⟩))
  have stays : ∀ target others, Level.assignment.Stops others →
      assignmentRest ampleExpression target others = .done target others :=
    fun target others stops => other (ended others stops)
  have fills : ∀ target,
      (assignmentRest ampleExpression target).Fills Level.assignment.Stops Level.assignment.Stops :=
    fun target => fills_of_done (stays target)
  refine operands.bind (fun target => Reads.enter ⟨fun ts within => ?_, fills target⟩ exits)
    (.inl exits)
  cases ts with
  | nil => exact readsAt_done_nil rfl (stays target)
  | cons t ws =>
    by_cases equal : t.kind = .equal
    · have value := expressions.bind (reads_assignTo target t) (.inl fun _ stops => stops)
      exact (value.reading ws (Nat.lt_of_succ_lt_succ within)).cons fun ws => by
        simp only [assignmentRest, equal, if_true]
    · exact readsAt_done_cons (fun _ => other (beq_eq_false_iff_ne.mpr equal)) (stays target)

/-- Every level reads one token further than the expressions inside it. -/
theorem reads_level (level : Level) :
    Reads (bound + 1) Anything level.Stops (ampleLevel level) := by
  have primary := reads_primary expressions
  have call : Reads (bound + 1) Anything Level.call.Stops (ampleLevel .call) :=
    reads_loop expressions rfl primary
  have unary := reads_unary call
  have factor : Reads (bound + 1) Anything Level.factor.Stops (ampleLevel .factor) :=
    reads_loop expressions rfl unary
  have term : Reads (bound + 1) Anything Level.term.Stops (ampleLevel .term) :=
    reads_loop expressions rfl factor
  have comparison : Reads (bound + 1) Anything Level.comparison.Stops (ampleLevel .comparison) :=
    reads_loop expressions rfl term
  have equality : Reads (bound + 1) Anything Level.equality.Stops (ampleLevel .equality) :=
    reads_loop expressions rfl comparison
  have conjunction : Reads (bound + 1) Anything Level.and.Stops (ampleLevel .and) :=
    reads_loop expressions rfl equality
  have disjunction : Reads (bound + 1) Anything Level.or.Stops (ampleLevel .or) :=
    reads_loop expressions rfl conjunction
  cases level with
  | assignment => exact reads_assignment expressions disjunction
  | or => exact disjunction
  | and => exact conjunction
  | equality => exact equality
  | comparison => exact comparison
  | term => exact term
  | factor => exact factor
  | unary => exact unary
  | call => exact call
  | primary => exact primary

end Expression

theorem reads_expression (bound : Nat) :
    Reads bound Anything Level.assignment.Stops ampleExpression := by
  induction bound with
  | zero =>
    refine ⟨fun _ within => absurd within (Nat.not_lt_zero _), ?_⟩
    rw [ampleExpression_eq]
    exact fills_level .assignment
  | succ bound ih =>
    have level := reads_level ih .assignment
    rw [← ampleExpression_eq] at level
    exact level

/-! ## Statements -/

/-- What may follow a statement. -/
def NotElse (others : List Token) : Prop := isNext .else others = false

theorem isNext_eq_false {kind other : Kind} (different : kind ≠ other) {others : List Token}
    (next : isNext kind others = true) : isNext other others = false := by
  cases others with
  | nil => rfl
  | cons t others =>
    rw [isNext, isNext_cons.mp next]
    exact beq_eq_false_iff_ne.mpr different

theorem stops_of_kind {level : Level} {kind : Kind} (ends : Level.ends kind = true) (t : Token)
    (others : List Token) (same : t.kind = kind) : level.Stops (t :: others) :=
  Level.stops_of_ends (by rw [same]; exact ends)

section Statement

variable {bound : Nat}

theorem reads_variableDeclaration :
    Reads bound Anything Anything (variableDeclaration ampleExpression) := by
  refine (reads_require fun _ _ _ => trivial).andThen fun name => ?_
  have initializer : Reads bound (isNext .semicolon · = true) (isNext .semicolon · = true)
      (ifNext .equal ampleExpression) :=
    (reads_expression bound).ifNext (fun _ next => isNext_eq_false (by decide) next) fun _ next =>
      stops_of_isNext rfl next
  exact initializer.anywhere.thenRequire (fun _ _ kind => isNext_cons.mpr kind)
    (fun _ _ => reads_pure _)
    fun _ _ => shrinks_pure _

theorem reads_expressionStatement :
    Reads bound Anything Anything (expressionStatement ampleExpression) :=
  (reads_expression bound).thenRequire (stops_of_kind rfl) (fun _ _ => reads_pure _) fun _ _ =>
    shrinks_pure _

theorem reads_printStatement : Reads bound Anything Anything (printStatement ampleExpression) :=
  (reads_expression bound).thenRequire (stops_of_kind rfl) (fun _ _ => reads_pure _) fun _ _ =>
    shrinks_pure _

theorem reads_breakStatement (context : Context) (keyword : Token) :
    Reads bound Anything Anything (breakStatement context keyword) :=
  (reads_onlyIf_reportAt rfl _).andThen fun _ =>
    (reads_require fun _ _ _ => trivial).andThen fun _ => reads_pure _

/-- An expression that may be left out before a token that ends it. -/
theorem reads_unlessNext {kind : Kind} (ends : Level.ends kind = true) :
    Reads bound Anything (isNext kind · = true) (unlessNext kind ampleExpression) :=
  (reads_expression bound).unlessNext ampleExpression_consumes wants_expression fun _ next =>
    stops_of_isNext ends next

theorem reads_returnStatement (context : Context) (keyword : Token) :
    Reads bound Anything Anything (returnStatement context ampleExpression keyword) := by
  refine (reads_onlyIf_reportAt rfl _).andThen fun _ => ?_
  exact (reads_unlessNext rfl).thenRequire (fun _ _ kind => isNext_cons.mpr kind)
    (fun _ _ => reads_pure _)
    fun _ _ => shrinks_pure _

theorem reads_forInitializer : Reads bound Anything Anything (forInitializer ampleExpression) := by
  have clause : Reads bound Anything Anything (some <$> expressionStatement ampleExpression) :=
    reads_expressionStatement.map some
  have fills : (forInitializer ampleExpression).Fills Anything Anything := by
    have endless : Endless [⟨default, .semicolon⟩] := endless_singleton Kind.noConfusion
    refine ⟨[⟨default, .semicolon⟩], none, endless, fun others _ => ⟨trivial, ?_⟩⟩
    exact Outcome.passesTo_done none others
  refine ⟨fun ts within => ?_, fills⟩
  cases ts with
  | nil => exact Wants.readsAt ⟨.expressionExpected, rfl, rfl⟩ fills.completes
  | cons t ws =>
    cases kind : t.kind with
    | semicolon =>
      exact ((reads_pure none).reading ws (Nat.lt_succ_self _)).cons fun ws => by
        simp only [forInitializer, kind]
        rfl
    | var =>
      have declared := (reads_variableDeclaration.map some).reading ws (Nat.lt_of_succ_lt within)
      exact declared.cons fun ws => by simp only [forInitializer, kind]
    | _ =>
      have consumes :=
        (expressionStatement_takes ampleExpression_consumes.shrinks).consumes.map some
      exact (clause.reading (t :: ws) within).sameHead
        (fun ws => by simp only [forInitializer, kind])
        (consumes (t :: ws))

theorem reads_ifStatement {branch : Parser Stmt} (branches : Reads bound Anything NotElse branch)
    (shrinks : branch.Shrinks) :
    Reads bound Anything NotElse (ifStatement ampleExpression branch) := by
  refine (reads_require fun _ _ _ => trivial).andThen fun _ => ?_
  refine (reads_expression bound).thenRequire (stops_of_kind rfl)
    (fun condition _ => ?_) fun _ _ => ?_
  · refine branches.bind (fun thenBranch => ?_) (.inl fun _ exit => exit)
    have elseBranch : Reads bound NotElse NotElse (ifNext .else branch) :=
      branches.ifNext (fun _ exit => exit) fun _ exit => exit
    exact elseBranch.bind (fun _ => reads_pure _) (.inl fun _ exit => exit)
  · exact shrinks.bind fun _ => (shrinks_ifNext _ shrinks).bind fun _ => shrinks_pure _

theorem reads_whileStatement {body : Parser Stmt} (bodies : Reads bound Anything NotElse body)
    (shrinks : body.Shrinks) :
    Reads bound Anything NotElse (whileStatement ampleExpression body) := by
  refine (reads_require fun _ _ _ => trivial).andThen fun _ => ?_
  refine (reads_expression bound).thenRequire (stops_of_kind rfl)
    (fun condition _ => ?_) fun _ _ => ?_
  · exact bodies.bind (fun _ => reads_pure _) (.inl fun _ exit => exit)
  · exact shrinks.bind fun _ => shrinks_pure _

theorem reads_forStatement {body : Parser Stmt} (bodies : Reads bound Anything NotElse body)
    (shrinks : body.Shrinks) :
    Reads bound Anything NotElse (forStatement ampleExpression body) := by
  have closing : ∀ (kind : Kind) (t : Token) (others : List Token), t.kind = kind →
      isNext kind (t :: others) = true :=
    fun _ _ _ kind => isNext_cons.mpr kind
  have expressions := ampleExpression_consumes.shrinks
  refine (reads_require fun _ _ _ => trivial).andThen fun _ =>
    reads_forInitializer.andThen fun initializer => ?_
  refine (reads_unlessNext rfl).thenRequire (closing .semicolon)
    (fun condition _ => ?_) fun _ _ => ?_
  · refine (reads_unlessNext rfl).thenRequire (closing .rightParen)
      (fun increment _ => ?_) fun _ _ => ?_
    · exact bodies.bind (fun _ => reads_pure _) (.inl fun _ exit => exit)
    · exact shrinks.bind fun _ => shrinks_pure _
  · refine (shrinks_unlessNext _ expressions).bind fun _ => (shrinks_require _).bind fun _ => ?_
    exact shrinks.bind fun _ => shrinks_pure _

theorem reads_block {statement : Parser Stmt} (statements : Reads bound Anything NotElse statement)
    (consumes : statement.Consumes) : Reads bound Anything Anything (ampleBlock statement) := by
  have steps : ∀ (count : Nat) (t : Token) (ws : List Token),
      declaration? statement count (t :: ws) =
      if t.kind == .rightBrace then none else some (recovering statement (t :: ws)) :=
        fun _ _ _ => rfl
  have declarations : Reads bound (isNext .rightBrace · = true) (isNext .rightBrace · = true)
      (manyAll (declaration? statement) 0) := by
    have exits : ∀ others, isNext .rightBrace others = true → NotElse others := fun _ next =>
      isNext_eq_false (by decide) next
    refine reads_manyAll (·.kind == .rightBrace) (fun _ => recovering statement)
      (fun _ => rfl) steps
      (fun _ t ws => recovering_takes consumes (List.cons_ne_nil t ws))
        (fun _ t ws within => ?_) exits
      (fun _ _ next => next) 0
    exact readsAt_recovering (statements.reading (t :: ws) within)
  exact declarations.anywhere.thenRequire (fun _ _ kind => isNext_cons.mpr kind)
    (fun _ _ => reads_pure _)
    fun _ _ => shrinks_pure _

theorem reads_parameter (count : Nat) : Reads bound Anything Anything (parameter count) :=
  (reads_require fun _ _ _ => trivial).onlyIf_reportHere (takes_require _).consumes
    (wants_require _) rfl _

theorem reads_function {statement : Parser Stmt}
    (statements : Reads bound Anything NotElse statement) (takes : statement.Takes EndsOrOpens) :
    Reads bound Anything Anything (ampleFunction statement) := by
  have required : ∀ requirement, Reads bound Anything Anything (require requirement) := fun _ =>
    reads_require fun _ _ _ => trivial
  have params : Reads bound Anything (isNext .rightParen · = true) (separatedAll parameter) :=
    reads_separatedAll reads_parameter
      (fun _ => (shrinks_onlyIf (shrinks_reportHere _)).bind_takes fun _ =>
        (takes_require _).consumes)
      (fun _ _ => trivial) (wants_require _)
  refine (required _).andThen fun name => (required _).andThen fun _ => ?_
  refine params.thenRequire (fun _ _ kind => isNext_cons.mpr kind)
    (fun params _ => ?_) fun _ _ => ?_
  · refine (required _).andThen fun _ => ?_
    exact (reads_block statements takes.consumes).andThen fun _ => reads_pure _
  · refine (shrinks_require _).bind fun _ => ?_
    exact (ampleBlock_consumes takes).shrinks.bind fun _ => shrinks_pure _

theorem reads_keywordRule
    (statements : ∀ position context,
      Reads bound Anything NotElse (ampleStatement position context))
    {position : Position} {context : Context} {t : Token} {rule : Parser Stmt}
    (found : keywordRule ampleExpression ampleStatement position context t = some rule) :
    Reads bound Anything NotElse rule := by
  have anything : ∀ others, NotElse others → Anything others := fun _ _ => trivial
  have consumes : ∀ position context, (ampleStatement position context).Consumes :=
    fun position context =>
    (ampleStatement_takes position context).consumes
  unfold keywordRule at found
  split at found <;> cases found
  · exact (reads_function (statements _ _) (ampleStatement_takes _ _)).mono anything
  · exact reads_variableDeclaration.mono anything
  · exact (reads_breakStatement context t).mono anything
  · exact reads_forStatement (statements _ _) (consumes _ _).shrinks
  · exact reads_ifStatement (statements _ _) (consumes _ _).shrinks
  · exact reads_printStatement.mono anything
  · exact (reads_returnStatement context t).mono anything
  · exact reads_whileStatement (statements _ _) (consumes _ _).shrinks
  · exact ((reads_block (statements _ _) (consumes _ _)).map Stmt.block).mono anything

end Statement

/-- Where a statement is wanted, `nil;` can be filled in. -/
theorem fills_statement (position : Position) (context : Context) :
    (ampleStatement position context).Fills Anything NotElse := by
  have semicolon : Word .semicolon := ⟨⟨default, .semicolon⟩, rfl⟩
  have endless : Endless [nilWord.token, semicolon.token] :=
    endless_append (endless_singleton Kind.noConfusion)
      (endless_singleton (by rw [semicolon.kind_eq]; exact Kind.noConfusion))
  refine ⟨[nilWord.token, semicolon.token], .expression (.literal .nil), endless, fun others _ =>
    ⟨trivial, ?_⟩⟩
  have plain :
      keywordRule ampleExpression ampleStatement position context nilWord.token = none := by
    cases position <;> rfl
  have stops : Level.assignment.Stops (semicolon.token :: others) :=
    Level.stops_word semicolon others rfl
  have found : ampleExpression (nilWord.token :: semicolon.token :: others) =
      .done (.literal .nil) (semicolon.token :: others) := by
    rw [ampleExpression_eq, ampleLevel_nilWord nilWord stops]
  have done : expressionStatement ampleExpression (nilWord.token :: semicolon.token :: others) =
      .done (.expression (.literal .nil)) others := by
    refine bind_eq_done_iff.mpr
      ⟨_, _, found, bind_eq_done_iff.mpr ⟨semicolon.lexeme, others, ?_, rfl⟩⟩
    exact require_eq_done_iff.mpr ⟨semicolon, rfl, rfl⟩
  rw [ampleStatement_eq]
  simp only [List.cons_append, List.nil_append, ampleRule, plain, done]
  exact Outcome.passesTo_done _ others

theorem reads_statement (bound : Nat) (position : Position) (context : Context) :
    Reads bound Anything NotElse (ampleStatement position context) := by
  induction bound generalizing position context with
  | zero =>
    exact ⟨fun _ within => absurd within (Nat.not_lt_zero _), fills_statement position context⟩
  | succ bound ih =>
    refine ⟨fun ts within => ?_, fills_statement position context⟩
    cases ts with
    | nil =>
      exact Wants.readsAt ⟨.expressionExpected, rfl, rfl⟩
        (fills_statement position context).completes
    | cons t ws =>
      rw [ampleStatement_eq]
      cases found : keywordRule ampleExpression ampleStatement position context t with
      | some rule =>
        have read := (reads_keywordRule ih found).reading ws (Nat.lt_of_succ_lt_succ within)
        exact read.cons fun ws => by simp only [ampleRule, found]
      | none =>
        have read : ReadsAt NotElse (expressionStatement ampleExpression) (t :: ws) :=
          (reads_expressionStatement.reading (t :: ws) within).mono fun _ _ => trivial
        exact read.sameHead (fun ws => by simp only [ampleRule, found])
          ((expressionStatement_takes ampleExpression_consumes.shrinks).consumes (t :: ws))

end Grammar

end Lox
