import Lox.Proofs.Grammar.Clean

/-!
# Parsing expressions is deriving expressions

`expression` finds an expression cleanly exactly where the grammar derives one.

* `expression_sound`: what it finds, the tokens that it takes derive.  Each rule is sound if the
  parser of nested expressions is, and the induction is on the budget.
* `expression_complete`: it finds what the tokens derive, before anything that would not continue
  the expression, with a budget of at least the number of tokens.  The induction is on the
  derivation.  A derivation of an operation nests to the left while the parser loops to the right,
  so for the levels with a loop the induction says how far the loop has come, by `Parser.Steps`.
-/

namespace Lox.Grammar

open Lox.Parser

/-! ## Levels and ranks -/

namespace Level

/-- The level of the operations of a rank. -/
def ofRank : Nat → Level
  | 0 => .unary
  | 1 => .factor
  | 2 => .term
  | 3 => .comparison
  | 4 => .equality
  | 5 => .and
  | _ => .or

theorem ofOperator_eq_ofRank (op : Operator) : ofOperator op = ofRank op.rank := by
  rcases op with op | op <;> cases op <;> rfl

theorem next_ofRank : ∀ {rank : Nat}, rank < Operator.lastRank →
    (ofRank (rank + 1)).next = ofRank rank
  | 0, _ | 1, _ | 2, _ | 3, _ | 4, _ | 5, _ => rfl

end Level

/-! ## Soundness -/

section Soundness

variable {budget : Nat} {nested : Parser Expr}

theorem Phrase.Derives.of_listed {trees : List Expr} {ts : List Token}
    (listed : Listed Expression trees ts) : (Phrase.arguments trees).Derives ts := by
  induction listed with
  | none => exact .noArguments
  | one tree => exact .oneArgument tree
  | more comma tree _ ih => exact .moreArguments comma tree ih

theorem primary_sound (sound : nested.Sound Expression) :
    (primary nested).Sound fun tree ts => (Phrase.expression .primary tree).Derives ts := by
  intro ts tree rest clean
  cases ts with
  | nil => simp [primary] at clean
  | cons t ts =>
    simp only [primary] at clean
    split at clean
    case h_1 kind =>
      obtain ⟨rfl, rfl⟩ := Outcome.done_eq_done_iff.mp clean
      exact ⟨[t], rfl, .nil ⟨t, kind⟩⟩
    case h_2 kind =>
      obtain ⟨rfl, rfl⟩ := Outcome.done_eq_done_iff.mp clean
      exact ⟨[t], rfl, .true ⟨t, kind⟩⟩
    case h_3 kind =>
      obtain ⟨rfl, rfl⟩ := Outcome.done_eq_done_iff.mp clean
      exact ⟨[t], rfl, .false ⟨t, kind⟩⟩
    case h_4 value kind =>
      obtain ⟨rfl, rfl⟩ := Outcome.done_eq_done_iff.mp clean
      exact ⟨[t], rfl, .number ⟨t, kind⟩⟩
    case h_5 value kind =>
      obtain ⟨rfl, rfl⟩ := Outcome.done_eq_done_iff.mp clean
      exact ⟨[t], rfl, .string ⟨t, kind⟩⟩
    case h_6 kind =>
      obtain ⟨rfl, rfl⟩ := Outcome.done_eq_done_iff.mp clean
      exact ⟨[t], rfl, .name ⟨t, kind⟩⟩
    case h_7 kind =>
      simp only [groupingRest, bind_eq_done_iff, require_eq_done_iff, pure_apply,
        Outcome.done_eq_done_iff] at clean
      obtain ⟨inner, middle, found, _, _, ⟨closing, rfl, rfl⟩, rfl, rfl⟩ := clean
      obtain ⟨us, rfl, derived⟩ := sound.split found
      exact ⟨t :: us ++ [closing.token], by simp, .grouping ⟨t, kind⟩ closing derived⟩
    case h_8 => simp at clean

theorem argument_sound (sound : nested.Sound Expression) (count : Nat) :
    (argument nested count).Sound fun tree ts => count < 255 ∧ Expression tree ts := by
  intro ts tree rest clean
  simp only [argument, bind_eq_done_iff, onlyIf_reportHere_eq_done_iff] at clean
  obtain ⟨_, middle, ⟨less, rfl⟩, found⟩ := clean
  obtain ⟨us, rfl, derived⟩ := sound.split found
  exact ⟨us, rfl, Nat.lt_of_not_le (of_decide_eq_false less), derived⟩

theorem call_sound (sound : nested.Sound Expression) :
    (call budget nested).Sound fun tree ts => (Phrase.expression .call tree).Derives ts := by
  refine (primary_sound sound).chain (fun _ _ derived => .tighter derived) ?_ budget
  intro callee us ts tree rest derived step
  cases ts with
  | nil => simp [call?] at step
  | cons t ts =>
    by_cases kind : t.kind = .leftParen
    · simp only [call?, kind, if_true, Option.some.injEq, callRest, bind_eq_done_iff,
        require_eq_done_iff, pure_apply, Outcome.done_eq_done_iff] at step
      obtain ⟨arguments, middle, found, _, _, ⟨closing, rfl, rfl⟩, rfl, rfl⟩ := step
      obtain ⟨vs, rfl, listed, bound⟩ := (separated_sound (argument_sound sound) budget).split found
      refine ⟨t :: vs ++ [closing.token], by simp, ?_⟩
      rw [← List.append_assoc]
      exact .call ⟨t, kind⟩ closing derived (.of_listed listed) bound
    · simp [call?, kind] at step

theorem unary_sound (sound : nested.Sound Expression) :
    (unary budget nested).Sound fun tree ts => (Phrase.expression .unary tree).Derives ts := by
  intro ts tree rest clean
  induction ts generalizing tree with
  | nil =>
    obtain ⟨us, same, derived⟩ := (call_sound sound).split clean
    exact ⟨us, same, .tighter derived⟩
  | cons t ts ih =>
    simp only [unary] at clean
    split at clean
    case h_1 op kind =>
      obtain ⟨operand, found, rfl⟩ := Outcome.map_eq_done_iff.mp clean
      obtain ⟨us, rfl, derived⟩ := ih _ found
      exact ⟨t :: us, rfl, .unary ⟨t, UnaryOp.ofKind?_eq_some_iff.mp kind⟩ derived⟩
    case h_2 =>
      obtain ⟨us, same, derived⟩ := (call_sound sound).split clean
      exact ⟨us, same, .tighter derived⟩

theorem operations_sound (sound : nested.Sound Expression) {rank : Nat}
    (bound : rank ≤ Operator.lastRank) :
    (operations budget nested rank).Sound fun tree ts =>
      (Phrase.expression (.ofRank rank) tree).Derives ts := by
  induction rank with
  | zero => exact unary_sound sound
  | succ rank ih =>
    have operandSound := ih (Nat.le_of_succ_le bound)
    have next := Level.next_ofRank bound
    refine operandSound.chain (fun _ _ derived => .tighter (next.symm ▸ derived)) ?_ budget
    intro left us ts tree rest derived step
    cases ts with
    | nil => simp [operation?] at step
    | cons t ts =>
      cases kind : Operator.ofKind? t.kind with
      | none => simp [operation?, kind] at step
      | some op =>
        by_cases same : op.rank = rank + 1
        · simp only [operation?, kind, same, if_true, Option.some.injEq,
            Outcome.map_eq_done_iff] at step
          obtain ⟨right, found, rfl⟩ := step
          obtain ⟨vs, rfl, rightDerived⟩ := operandSound.split found
          have level : Level.ofRank (rank + 1) = .ofOperator op := by
            rw [Level.ofOperator_eq_ofRank, same]
          rw [level] at derived ⊢
          rw [← next, level] at rightDerived
          exact ⟨t :: vs, rfl,
            .operation ⟨t, Operator.ofKind?_eq_some_iff.mp kind⟩ derived rightDerived⟩
        · simp [operation?, kind, same] at step

/-- Only a name alone derives a variable. -/
theorem Phrase.Derives.exists_word {level : Level} {name : Lexeme} {ts : List Token}
    (derives : (Phrase.expression level (.variable name)).Derives ts) :
    ∃ word : Word .identifier, ts = [word.token] ∧ name = word.lexeme := by
  generalize same : Phrase.expression level (.variable name) = phrase at derives
  induction derives generalizing level with
  | tighter _ ih =>
    injection same with _ tree
    exact ih (congrArg _ tree)
  | name word =>
    injection same with _ tree
    injection tree with name
    exact ⟨word, rfl, name⟩
  | _ => simp at same

theorem assignment_sound (sound : nested.Sound Expression) :
    (assignment budget nested).Sound Expression := by
  intro ts tree rest clean
  obtain ⟨target, middle, found, more⟩ := bind_eq_done_iff.mp clean
  obtain ⟨us, rfl, derived⟩ := (operations_sound sound (Nat.le_refl _)).split found
  cases middle with
  | nil =>
    obtain ⟨rfl, rfl⟩ := Outcome.done_eq_done_iff.mp more
    exact ⟨us, rfl, .tighter derived⟩
  | cons t middle =>
    by_cases kind : t.kind = .equal
    · simp only [assignmentRest, kind, if_true, bind_eq_done_iff] at more
      obtain ⟨value, middle, found, assigned⟩ := more
      obtain ⟨vs, rfl, valueDerived⟩ := sound.split found
      cases target with
      | «variable» name =>
        obtain ⟨rfl, rfl⟩ := Outcome.done_eq_done_iff.mp assigned
        obtain ⟨word, rfl, rfl⟩ := derived.exists_word
        exact ⟨word.token :: t :: vs, rfl, .assign word ⟨t, kind⟩ valueDerived⟩
      | _ =>
        obtain ⟨_, _, reported, -⟩ := bind_eq_done_iff.mp assigned
        exact (Outcome.reporting_ne_done reported).elim
    · simp only [assignmentRest, kind, if_false, Outcome.done_eq_done_iff] at more
      obtain ⟨rfl, rfl⟩ := more
      exact ⟨us, rfl, .tighter derived⟩

/-- What `expression` finds cleanly is an expression. -/
theorem expression_sound (budget : Nat) : (expression budget).Sound Expression := by
  induction budget with
  | zero =>
    intro ts tree rest clean
    simp [expression, abort] at clean
  | succ budget ih => exact assignment_sound ih

end Soundness

/-! ## First tokens -/

/-- The kinds of tokens that an expression can start with. -/
def startsExpression : Kind → Bool
  | .minus | .bang | .leftParen | .identifier | .nil | .true | .false => Bool.true
  | .number _ | .string _ => Bool.true
  | _ => Bool.false

theorem startsExpression_unary (op : UnaryOp) : startsExpression op.kind = true := by
  cases op <;> rfl

/-- What the first token of a phrase is like.  Only a phrase of a loose level starts with an
operator. -/
def Phrase.Headed : Phrase → List Token → Prop
  | .expression level _, ts => ∃ t us, ts = t :: us ∧ startsExpression t.kind = true ∧
      (level = .call ∨ level = .primary → UnaryOp.ofKind? t.kind = none)
  | .arguments _, _ => True

theorem Phrase.Derives.headed {phrase : Phrase} {ts : List Token} (derives : phrase.Derives ts) :
    phrase.Headed ts := by
  induction derives with
  | @tighter level _ _ _ ih =>
    obtain ⟨t, us, rfl, starts, tight⟩ := ih
    refine ⟨t, us, rfl, starts, fun levels => tight ?_⟩
    rcases levels with rfl | rfl <;> exact .inr rfl
  | assign name equal _ _ =>
    exact ⟨_, _, rfl, by simp [name.kind_eq, startsExpression], by simp⟩
  | @operation op mark _ _ _ _ _ _ ih _ =>
    obtain ⟨t, us, rfl, starts, -⟩ := ih
    refine ⟨t, _, rfl, starts, fun levels => ?_⟩
    rcases op with op | op <;> cases op <;> simp [Level.ofOperator] at levels
  | @unary op mark _ _ _ _ =>
    exact ⟨_, _, rfl, by rw [mark.kind_eq, startsExpression_unary], by simp⟩
  | call opening closing _ _ _ ih _ =>
    obtain ⟨t, us, rfl, starts, tight⟩ := ih
    exact ⟨t, _, rfl, starts, tight⟩
  | grouping opening closing _ _ =>
    exact ⟨_, _, rfl, by simp [opening.kind_eq, startsExpression],
      by simp [opening.kind_eq, UnaryOp.ofKind?]⟩
  | name word | nil word | true word | false word | number word | string word =>
    exact ⟨_, _, rfl, by simp [word.kind_eq, startsExpression],
      by simp [word.kind_eq, UnaryOp.ofKind?]⟩
  | noArguments | oneArgument | moreArguments => trivial

/-- An expression starts with a token that no keyword, semicolon or closing bracket is. -/
theorem Expression.exists_head {tree : Expr} {ts : List Token} (derives : Expression tree ts) :
    ∃ t us, ts = t :: us ∧ startsExpression t.kind = true := by
  obtain ⟨t, us, same, starts, -⟩ := Phrase.Derives.headed derives
  exact ⟨t, us, same, starts⟩

theorem Expression.isNext_eq_false {tree : Expr} {ts : List Token} (derives : Expression tree ts)
    {kind : Kind} (other : startsExpression kind = false) (rest : List Token) :
    isNext kind (ts ++ rest) = false := by
  obtain ⟨t, us, rfl, starts⟩ := derives.exists_head
  rw [List.cons_append, isNext, beq_eq_false_iff_ne]
  rintro rfl
  rw [starts] at other
  contradiction

/-! ## Completeness -/

namespace Level

/-- The rank of the loosest operators of a level, 0 if it has none. -/
def rank : Level → Nat
  | .assignment | .or => 6
  | .and => 5
  | .equality => 4
  | .comparison => 3
  | .term => 2
  | .factor => 1
  | .unary | .call | .primary => 0

theorem rank_next_ofOperator (op : Operator) : (ofOperator op).next.rank < op.rank := by
  rcases op with op | op <;> cases op <;> decide

/-- A token of the kind would belong to an expression of the level that it stands behind. -/
def ContinuedBy (level : Level) (kind : Kind) : Prop :=
  (level ≠ .primary ∧ kind = .leftParen) ∨
    (∃ op : Operator, kind = op.kind ∧ op.rank ≤ level.rank) ∨ (level = .assignment ∧ kind = .equal)

/-- The tokens do not continue an expression of the level. -/
def Stops (level : Level) (rest : List Token) : Prop :=
  ∀ t us, rest = t :: us → ¬ level.ContinuedBy t.kind

theorem ContinuedBy.of_next {level : Level} {kind : Kind}
    (continued : level.next.ContinuedBy kind) : level.ContinuedBy kind := by
  rcases continued with ⟨notPrimary, paren⟩ | ⟨op, same, le⟩ | ⟨assigns, -⟩
  · refine .inl ⟨?_, paren⟩
    rintro rfl
    exact notPrimary rfl
  · refine .inr (.inl ⟨op, same, Nat.le_trans le ?_⟩)
    cases level <;> decide
  · cases level <;> simp [next] at assigns

theorem Stops.next {level : Level} {rest : List Token} (stops : level.Stops rest) :
    level.next.Stops rest :=
  fun t us same continued => stops t us same continued.of_next

theorem stops_primary (rest : List Token) : Level.primary.Stops rest := by
  rintro t us - (⟨notPrimary, -⟩ | ⟨op, -, le⟩ | ⟨assigns, -⟩)
  · exact notPrimary rfl
  · rcases op with op | op <;> cases op <;> simp [rank, Operator.rank] at le
  · contradiction

/-- An operator does not continue its left operand's operands. -/
theorem stops_mark {op : Operator} (mark : Word op.kind) (us : List Token) :
    (ofOperator op).next.Stops (mark.token :: us) := by
  rintro t rest same continued
  obtain ⟨rfl, -⟩ := List.cons.inj same
  rw [mark.kind_eq] at continued
  rcases continued with ⟨-, paren⟩ | ⟨other, same, le⟩ | ⟨-, equal⟩
  · rcases op with op | op <;> cases op <;> cases paren
  · have : op = other := by
      have found := Operator.ofKind?_eq_some_iff.mpr same
      rw [Operator.ofKind?_eq_some_iff.mpr rfl] at found
      exact Option.some.inj found
    subst this
    exact Nat.not_lt_of_le le (rank_next_ofOperator op)
  · rcases op with op | op <;> cases op <;> cases equal

/-- The kinds of tokens that end every expression before them. -/
def ends : Kind → Bool
  | .semicolon | .comma | .rightParen => Bool.true
  | _ => Bool.false

theorem stops_of_ends {level : Level} {t : Token} {us : List Token} (ending : ends t.kind = true) :
    level.Stops (t :: us) := by
  rintro t' us' same continued
  obtain ⟨rfl, rfl⟩ := List.cons.inj same
  rcases continued with ⟨-, paren⟩ | ⟨op, same, -⟩ | ⟨-, equal⟩
  · simp [paren, ends] at ending
  · rw [same] at ending
    rcases op with op | op <;> cases op <;> simp [Operator.kind, ends] at ending
  · simp [equal, ends] at ending

theorem stops_word {level : Level} {kind : Kind} (word : Word kind) (us : List Token)
    (ending : ends kind = true) : level.Stops (word.token :: us) :=
  stops_of_ends (word.kind_eq.symm ▸ ending)

/-- The level is parsed by a loop over its operators. -/
def loops : Level → Bool
  | .assignment | .unary | .primary => false
  | _ => true

end Level

/-- The parser of the expressions of a level. -/
def parserAt (budget : Nat) : Level → Parser Expr
  | .assignment => assignment budget (expression budget)
  | .call => call budget (expression budget)
  | .primary => primary (expression budget)
  | level => operations budget (expression budget) level.rank

/-- A step of the loop of a level. -/
def stepAt (budget : Nat) : Level → Expr → List Token → Option (Outcome Expr)
  | .call => call? budget (expression budget)
  | level => operation? level.rank (parserAt budget level.next)

theorem parserAt_eq_chain {budget : Nat} {level : Level} (loops : level.loops = true) :
    parserAt budget level = parserAt budget level.next >>= chain (stepAt budget level) budget := by
  cases level with
  | assignment | unary | primary => contradiction
  | _ => rfl

theorem stepAt_ofOperator {budget : Nat} (op : Operator) :
    stepAt budget (.ofOperator op) =
      operation? op.rank (parserAt budget (Level.ofOperator op).next) := by
  rcases op with op | op <;> cases op <;> rfl

theorem stepAt_of_stops {budget : Nat} {level : Level} {rest : List Token}
    (stops : level.Stops rest) (loops : level.loops = true) (tree : Expr) :
    stepAt budget level tree rest = none := by
  cases rest with
  | nil => cases level <;> rfl
  | cons t rest =>
    have notContinued := stops t rest rfl
    have notParen : level ≠ .primary → t.kind ≠ .leftParen :=
      fun notPrimary paren => notContinued (.inl ⟨notPrimary, paren⟩)
    have notOperator :
        operation? level.rank (parserAt budget level.next) tree (t :: rest) = none := by
      cases found : Operator.ofKind? t.kind with
      | none => simp only [operation?, found]
      | some op =>
        have other : op.rank ≠ level.rank := fun same => notContinued
          (.inr (.inl ⟨op, Operator.ofKind?_eq_some_iff.mp found, Nat.le_of_eq same⟩))
        simp only [operation?, found, other, if_false]
    cases level with
    | call => simp [stepAt, call?, notParen]
    | assignment | unary | primary => contradiction
    | _ => exact notOperator

/-- The loop of a level comes to the tree with the rest, in fewer steps than there are tokens. -/
def Reaches (budget : Nat) (level : Level) (ts : List Token) (tree : Expr) (rest : List Token) :
    Prop :=
  ∃ first middle count, parserAt budget level.next (ts ++ rest) = .done first middle ∧
    Steps (stepAt budget level) count first middle tree rest ∧ count < ts.length

/-- The parser of a level finds the tree, and if it is a loop it comes to the tree even before
further operators of the level. -/
def FoundAt (level : Level) (tree : Expr) (ts : List Token) : Prop :=
  ∀ budget rest, ts.length ≤ budget + 1 →
    (level.loops = true → level.next.Stops rest → Reaches budget level ts tree rest) ∧
    (level.loops = false → level.Stops rest → parserAt budget level (ts ++ rest) = .done tree rest)

namespace FoundAt

variable {level : Level} {tree : Expr} {ts rest : List Token} {budget : Nat}

theorem complete (found : FoundAt level tree ts) (enough : ts.length ≤ budget + 1)
    (stops : level.Stops rest) : parserAt budget level (ts ++ rest) = .done tree rest := by
  cases loops : level.loops with
  | false => exact (found budget rest enough).2 loops stops
  | true =>
    obtain ⟨first, middle, count, operand, steps, fewer⟩ :=
      (found budget rest enough).1 loops stops.next
    rw [parserAt_eq_chain loops, bind_eq_done_iff]
    refine ⟨first, middle, operand, ?_⟩
    have looped := steps.chain_eq (budget - count)
    rw [Nat.sub_add_cancel (by omega)] at looped
    rw [looped, chain_of_none (stepAt_of_stops stops loops tree)]

/-- `expression` finds what the parser of the loosest level finds. -/
theorem expression_eq (found : FoundAt .assignment tree ts) (nonempty : ts ≠ [])
    (enough : ts.length ≤ budget) (stops : Level.assignment.Stops rest) :
    expression budget (ts ++ rest) = .done tree rest := by
  obtain ⟨fewer, rfl⟩ : ∃ fewer, budget = fewer + 1 := by
    have := List.length_pos_iff.mpr nonempty
    exact ⟨budget - 1, by omega⟩
  exact found.complete enough stops

/-- What a tighter level finds, a level finds. -/
theorem of_next (derives : (Phrase.expression level.next tree).Derives ts)
    (found : FoundAt level.next tree ts) : FoundAt level tree ts := by
  intro budget rest enough
  obtain ⟨t, us, rfl, -, tight⟩ := derives.headed
  constructor
  · intro _ stops
    exact ⟨tree, rest, 0, found.complete enough stops, .refl, Nat.succ_pos _⟩
  · intro loops stops
    have operand := found.complete enough stops.next
    cases level with
    | assignment =>
      refine bind_eq_done_iff.mpr ⟨tree, rest, operand, ?_⟩
      cases rest with
      | nil => rfl
      | cons t rest =>
        have : t.kind ≠ .equal := fun equal => stops t rest rfl (.inr (.inr ⟨rfl, equal⟩))
        simp [assignmentRest, this]
    | unary =>
      have noOperator := tight (.inl rfl)
      change unary budget (expression budget) (t :: (us ++ rest)) = .done tree rest
      simp only [unary, noOperator]
      exact operand
    | primary => exact operand
    | _ => contradiction

end FoundAt

theorem argument_of_found {budget count : Nat} {tree : Expr} {ts rest : List Token}
    (found : expression budget (ts ++ rest) = .done tree rest) (less : count < 255) :
    argument (expression budget) count (ts ++ rest) = .done tree rest := by
  refine bind_eq_done_iff.mpr ⟨(), ts ++ rest, ?_, found⟩
  exact onlyIf_reportHere_eq_done_iff.mpr ⟨decide_eq_false (Nat.not_le_of_lt less), rfl⟩

/-- A step of the loop over calls finds the call of its arguments. -/
theorem call?_of_listed {budget : Nat} {callee : Expr} {arguments : List Expr}
    {us rest : List Token} (opening : Word .leftParen) (closing : Word .rightParen)
    (listed : Listed (fun tree ts => Expression tree ts ∧ FoundAt .assignment tree ts) arguments us)
    (bound : arguments.length ≤ 255) (enough : us.length ≤ budget) :
    call? budget (expression budget) callee (opening.token :: us ++ closing.token :: rest) =
      some (.done (.call callee closing.lexeme arguments) rest) := by
  have nonempty : ∀ tree ts, Expression tree ts ∧ FoundAt .assignment tree ts → ts ≠ [] := by
    rintro tree ts ⟨derives, -⟩ rfl
    obtain ⟨_, _, same, -⟩ := derives.exists_head
    contradiction
  have found : separated (argument (expression budget)) budget (us ++ closing.token :: rest) =
      .done arguments (closing.token :: rest) := by
    refine separated_of_listed ?_ ?_ (listed_within listed enough) bound
      (isNext_cons.mpr closing.kind_eq) ?_
    · rintro count tree ts rest less ⟨item, within⟩ ends
      have stops : Level.assignment.Stops rest := by
        cases rest with
        | nil => rintro _ _ ⟨⟩
        | cons t rest =>
          refine Level.stops_of_ends ?_
          rcases ends with ends | ends <;> rw [isNext_cons.mp ends] <;> rfl
      exact argument_of_found (item.2.expression_eq (nonempty _ _ item) within stops) less
    · rintro tree ts rest ⟨item, -⟩
      exact item.1.isNext_eq_false rfl rest
    · have := length_le_of_listed listed nonempty
      omega
  simp only [List.cons_append, call?, opening.kind_eq, if_true]
  refine congrArg some (bind_eq_done_iff.mpr ⟨arguments, _, found, ?_⟩)
  exact bind_eq_done_iff.mpr
    ⟨closing.lexeme, rest, require_eq_done_iff.mpr ⟨closing, rfl, rfl⟩, rfl⟩

/-! ### One lemma for each rule -/

namespace FoundAt

theorem name (word : Word .identifier) :
    FoundAt .primary (.variable word.lexeme) [word.token] := by
  intro budget rest _
  refine ⟨by simp [Level.loops], fun _ _ => ?_⟩
  simp [parserAt, primary, word.kind_eq, Word.lexeme]

theorem name_or (word : Word .identifier) : FoundAt .or (.variable word.lexeme) [word.token] := by
  have loosen : ∀ level : Level,
      (Phrase.expression level.next (.variable word.lexeme)).Derives [word.token] ∧
        FoundAt level.next (.variable word.lexeme) [word.token] →
      (Phrase.expression level (.variable word.lexeme)).Derives [word.token] ∧
        FoundAt level (.variable word.lexeme) [word.token] :=
    fun _ tight => ⟨.tighter tight.1, .of_next tight.1 tight.2⟩
  have unary := loosen .unary (loosen .call ⟨.name word, name word⟩)
  have comparison := loosen .comparison (loosen .term (loosen .factor unary))
  exact (loosen .or (loosen .and (loosen .equality comparison))).2

theorem assign (name : Word .identifier) (equal : Word .equal) {value : Expr} {ts : List Token}
    (derives : Expression value ts) (found : FoundAt .assignment value ts) :
    FoundAt .assignment (.assign name.lexeme value) (name.token :: equal.token :: ts) := by
  intro budget rest enough
  refine ⟨by simp [Level.loops], fun _ stops => ?_⟩
  obtain ⟨t, us, rfl, -⟩ := derives.exists_head
  simp only [List.length_cons] at enough
  have targetStops : Level.or.Stops (equal.token :: (t :: us ++ rest)) := by
    rintro t' us' same continued
    obtain ⟨rfl, -⟩ := List.cons.inj same
    rw [equal.kind_eq] at continued
    rcases continued with ⟨-, paren⟩ | ⟨op, same, -⟩ | ⟨assigns, -⟩
    · contradiction
    · rcases op with op | op <;> cases op <;> contradiction
    · contradiction
  have target := (name_or name).complete (Nat.le_add_left 1 budget) targetStops
  refine bind_eq_done_iff.mpr ⟨_, _, target, ?_⟩
  have valueFound : expression budget (t :: us ++ rest) = .done value rest :=
    found.expression_eq (List.cons_ne_nil t us) (by simp only [List.length_cons]; omega) stops
  simp only [assignmentRest, equal.kind_eq, if_true]
  exact bind_eq_done_iff.mpr ⟨value, rest, valueFound, rfl⟩

theorem operation {op : Operator} (mark : Word op.kind) {left right : Expr} {ts us : List Token}
    (leftFound : FoundAt (.ofOperator op) left ts)
    (rightFound : FoundAt (Level.ofOperator op).next right us) :
    FoundAt (.ofOperator op) (.operation left op mark.lexeme right) (ts ++ mark.token :: us) := by
  have loops : (Level.ofOperator op).loops = true := by
    rcases op with op | op <;> cases op <;> rfl
  intro budget rest enough
  refine ⟨fun _ stops => ?_, by simp [loops]⟩
  simp only [List.length_append, List.length_cons] at enough
  obtain ⟨first, middle, count, operand, steps, fewer⟩ :=
    (leftFound budget (mark.token :: (us ++ rest)) (by omega)).1 loops (Level.stops_mark mark _)
  refine ⟨first, middle, count + 1, by simpa using operand, steps.snoc ?_, by simp; omega⟩
  have rightDone := rightFound.complete (Nat.le_trans (by omega) enough) stops
  simp only [stepAt_ofOperator, operation?, Operator.ofKind?_eq_some_iff.mpr mark.kind_eq, if_true,
    rightDone, Outcome.map_done, Word.lexeme]

theorem unary {op : UnaryOp} (mark : Word op.kind) {operand : Expr} {ts : List Token}
    (found : FoundAt .unary operand ts) :
    FoundAt .unary (.unary op mark.lexeme operand) (mark.token :: ts) := by
  intro budget rest enough
  refine ⟨by simp [Level.loops], fun _ stops => ?_⟩
  have operandFound : Grammar.unary budget (expression budget) (ts ++ rest) = .done operand rest :=
    found.complete (Nat.le_of_succ_le enough) stops
  change Grammar.unary budget (expression budget) (mark.token :: (ts ++ rest)) = _
  simp only [Grammar.unary, UnaryOp.ofKind?_eq_some_iff.mpr mark.kind_eq, operandFound,
    Outcome.map_done, Word.lexeme]

theorem call (opening : Word .leftParen) (closing : Word .rightParen) {callee : Expr}
    {arguments : List Expr} {ts us : List Token} (calleeFound : FoundAt .call callee ts)
    (listed : Listed (fun tree ts => Expression tree ts ∧ FoundAt .assignment tree ts) arguments us)
    (bound : arguments.length ≤ 255) :
    FoundAt .call (.call callee closing.lexeme arguments)
      (ts ++ opening.token :: us ++ [closing.token]) := by
  intro budget rest enough
  refine ⟨fun loops _ => ?_, by simp [Level.loops]⟩
  simp only [List.length_append, List.length_cons, List.length_nil] at enough
  obtain ⟨first, middle, count, operand, steps, fewer⟩ :=
    (calleeFound budget (opening.token :: us ++ closing.token :: rest) (by omega)).1 loops
      (Level.stops_primary _)
  refine ⟨first, middle, count + 1, by simpa using operand, steps.snoc ?_, by simp; omega⟩
  exact call?_of_listed opening closing listed bound (by omega)

theorem grouping (opening : Word .leftParen) (closing : Word .rightParen) {inner : Expr}
    {ts : List Token} (derives : Expression inner ts) (found : FoundAt .assignment inner ts) :
    FoundAt .primary (.grouping inner) (opening.token :: ts ++ [closing.token]) := by
  intro budget rest enough
  refine ⟨by simp [Level.loops], fun _ _ => ?_⟩
  obtain ⟨t, us, rfl, -⟩ := derives.exists_head
  simp only [List.length_append, List.length_cons, List.length_nil] at enough
  have innerFound : expression budget (t :: us ++ closing.token :: rest) =
      .done inner (closing.token :: rest) :=
    found.expression_eq (List.cons_ne_nil t us) (by simp only [List.length_cons]; omega)
      (Level.stops_word closing rest rfl)
  simp only [parserAt, List.cons_append, List.append_assoc, primary, opening.kind_eq]
  refine bind_eq_done_iff.mpr ⟨inner, _, innerFound, ?_⟩
  exact bind_eq_done_iff.mpr
    ⟨closing.lexeme, rest, require_eq_done_iff.mpr ⟨closing, rfl, rfl⟩, rfl⟩

end FoundAt

/-- What the parsers find of a phrase. -/
def Phrase.Found : Phrase → List Token → Prop
  | .expression level tree, ts => FoundAt level tree ts
  | .arguments trees, ts =>
    Listed (fun tree us => Expression tree us ∧ FoundAt .assignment tree us) trees ts

/-- The parsers find every phrase that is derived. -/
theorem Phrase.Derives.found {phrase : Phrase} {ts : List Token} (derives : phrase.Derives ts) :
    phrase.Found ts := by
  induction derives with
  | tighter operand ih => exact .of_next operand ih
  | assign name equal derives ih => exact .assign name equal derives ih
  | operation mark _ _ ihLeft ihRight => exact .operation mark ihLeft ihRight
  | unary mark _ ih => exact .unary mark ih
  | call opening closing _ _ bound ihCallee ihArguments =>
    exact .call opening closing ihCallee ihArguments bound
  | grouping opening closing derives ih => exact .grouping opening closing derives ih
  | name word => exact .name word
  | nil word | true word | false word | number word | string word =>
    intro budget rest _
    refine ⟨by simp [Level.loops], fun _ _ => ?_⟩
    simp [parserAt, primary, word.kind_eq]
  | noArguments => exact .none
  | oneArgument derives ih => exact .one ⟨derives, ih⟩
  | moreArguments comma derives _ ih ihMore => exact .more comma ⟨derives, ih⟩ ihMore

/-- `expression` finds every expression before tokens that do not continue it. -/
theorem expression_complete {tree : Expr} {ts rest : List Token} {budget : Nat}
    (derives : Expression tree ts) (enough : ts.length ≤ budget)
    (stops : Level.assignment.Stops rest) : expression budget (ts ++ rest) = .done tree rest := by
  obtain ⟨t, us, rfl, -⟩ := derives.exists_head
  have found : FoundAt .assignment tree (t :: us) := Phrase.Derives.found derives
  exact found.expression_eq (List.cons_ne_nil t us) enough stops

end Lox.Grammar
