import Lox.Proofs.Grammar.Consumption

/-!
# Parsing without a budget

The rules of the grammar are bounded by a budget, so that they end.  A rule calls itself only behind
a token that it has taken, and each step of a loop takes a token.  So any budget of at least the
number of tokens gives the same outcome, and a larger one is never used up.

* `Parser.Agree`: two parsers do the same with up to a number of tokens.  There is one rule for each
  combinator.
* `expression_agree`, `statement_agree`: budgets that suffice make no difference.
* `expression_agree_or`, `statement_agree_or`: what a used-up budget comes to makes no difference
  for a larger one.
* `ampleExpression`, `ampleLevel`, `ampleStatement`: the parsers with a budget that suffices.  They
  obey the rules of the grammar with no mention of a budget (`ampleLevel_loop`, `ampleStatement_eq`
  and so on), and this is how later modules reason about them.
-/

namespace Lox

theorem Outcome.bind_congr {α β : Type} {o : Outcome α} {next other : α → List Token → Outcome β}
    (same : ∀ value rest, o.reply = .done value rest → next value rest = other value rest) :
    o.bind next = o.bind other := by
  cases replied : o.reply with
  | done value rest => rw [bind_of_done replied, bind_of_done replied, same value rest replied]
  | abort fault rest => rw [bind_of_abort replied, bind_of_abort replied]

namespace Parser

variable {α β : Type} {bound : Nat} {p q : Parser α}

/-- The parsers do the same with up to the given number of tokens. -/
def Agree (bound : Nat) (p q : Parser α) : Prop := ∀ ts, ts.length ≤ bound → p ts = q ts

theorem agree_refl (bound : Nat) (p : Parser α) : Agree bound p p := fun _ _ => rfl

namespace Agree

theorem mono {fewer : Nat} (agree : Agree bound p q) (le : fewer ≤ bound) : Agree fewer p q :=
  fun ts within => agree ts (Nat.le_trans within le)

theorem bind (agree : Agree bound p q) (shrinks : p.Shrinks) {next other : α → Parser β}
    (further : ∀ value, Agree bound (next value) (other value)) :
    Agree bound (p >>= next) (q >>= other) := by
  intro ts within
  rw [bind_apply, bind_apply, ← agree ts within]
  refine Outcome.bind_congr fun value rest replied => ?_
  have suffix := shrinks ts
  rw [Outcome.rest_of_done replied] at suffix
  exact further value rest (Nat.le_trans suffix.length_le within)

/-- Behind a parser that takes tokens, one token fewer is left to agree on. -/
theorem bind_consumed (agree : Agree (bound + 1) p q) (consumes : p.Consumes)
    {next other : α → Parser β} (further : ∀ value, Agree bound (next value) (other value)) :
    Agree (bound + 1) (p >>= next) (q >>= other) := by
  intro ts within
  rw [bind_apply, bind_apply, ← agree ts within]
  refine Outcome.bind_congr fun value rest replied => ?_
  have shorter := (consumes ts).length_lt replied
  exact further value rest (by omega)

theorem map (agree : Agree bound p q) (f : α → β) : Agree bound (f <$> p) (f <$> q) := by
  intro ts within
  rw [map_apply, map_apply, agree ts within]

theorem unlessNext (agree : Agree bound p q) (kind : Kind) :
    Agree bound (unlessNext kind p) (unlessNext kind q) := by
  intro ts within
  simp only [Parser.unlessNext, agree.map some ts within]

theorem ifNext (agree : Agree bound p q) (kind : Kind) :
    Agree bound (ifNext kind p) (ifNext kind q) := by
  intro ts within
  cases ts with
  | nil => rfl
  | cons t rest => simp only [Parser.ifNext, agree.map some rest (Nat.le_of_succ_le within)]

/-- Loops agree if their steps do, since each step takes a token.  The induction is on the number of
tokens. -/
theorem chain {step? other? : α → List Token → Option (Outcome α)}
    (steps : ∀ value ts, ts.length ≤ bound → step? value ts = other? value ts)
    (stops : ∀ value, step? value [] = none)
    (consumes : ∀ value ts o, step? value ts = some o → o.Takes (fun _ => True) ts)
    {budget more : Nat} (enough : bound ≤ budget) (enoughMore : bound ≤ more) (value : α) :
    Agree bound (chain step? budget value) (chain other? more value) := by
  induction bound generalizing budget more value with
  | zero =>
    intro ts within
    obtain rfl := List.eq_nil_of_length_eq_zero (Nat.le_zero.mp within)
    rw [chain_of_none (stops value), chain_of_none (by rw [← steps value [] within, stops])]
  | succ bound ih =>
    intro ts within
    obtain ⟨budget, rfl⟩ : ∃ fewer, budget = fewer + 1 := ⟨budget - 1, by omega⟩
    obtain ⟨more, rfl⟩ : ∃ fewer, more = fewer + 1 := ⟨more - 1, by omega⟩
    cases found : step? value ts with
    | none => rw [chain_of_none found, chain_of_none (by rw [← steps value ts within, found])]
    | some o =>
      rw [chain_succ found, chain_succ (by rw [← steps value ts within, found])]
      refine Outcome.bind_congr fun last rest replied => ?_
      have shorter := (consumes value ts o found).length_lt replied
      exact ih (fun value us less => steps value us (Nat.le_succ_of_le less)) (by omega)
        (by omega) last rest
        (by omega)

theorem many {step? other? : Nat → List Token → Option (Outcome α)}
    (steps : ∀ count ts, ts.length ≤ bound → step? count ts = other? count ts)
    (stops : ∀ count, step? count [] = none)
    (consumes : ∀ count ts o, step? count ts = some o → o.Takes (fun _ => True) ts)
    {budget more : Nat} (enough : bound ≤ budget) (enoughMore : bound ≤ more) (count : Nat) :
    Agree bound (many step? budget count) (many other? more count) := by
  induction bound generalizing budget more count with
  | zero =>
    intro ts within
    obtain rfl := List.eq_nil_of_length_eq_zero (Nat.le_zero.mp within)
    rw [many_of_none (stops count), many_of_none (by rw [← steps count [] within, stops])]
  | succ bound ih =>
    intro ts within
    obtain ⟨budget, rfl⟩ : ∃ fewer, budget = fewer + 1 := ⟨budget - 1, by omega⟩
    obtain ⟨more, rfl⟩ : ∃ fewer, more = fewer + 1 := ⟨more - 1, by omega⟩
    cases found : step? count ts with
    | none => rw [many_of_none found, many_of_none (by rw [← steps count ts within, found])]
    | some o =>
      rw [many_succ found, many_succ (by rw [← steps count ts within, found])]
      refine Outcome.bind_congr fun value rest replied => ?_
      have shorter := (consumes count ts o found).length_lt replied
      have same :=
        ih (fun count us less => steps count us (Nat.le_succ_of_le less))
          (Nat.le_of_succ_le_succ enough)
        (Nat.le_of_succ_le_succ enoughMore) (count + 1) rest (by omega)
      exact congrArg (Outcome.map (value :: ·)) same

theorem separated {item other : Nat → Parser α}
    (items : ∀ count, Agree bound (item count) (other count))
    (shrinks : ∀ count, (item count).Shrinks) {budget more : Nat} (enough : bound ≤ budget)
    (enoughMore : bound ≤ more) : Agree bound (separated item budget) (separated other more) := by
  have steps : ∀ count ts, ts.length ≤ bound →
      afterComma? item count ts = afterComma? other count ts := by
    intro count ts within
    cases ts with
    | nil => rfl
    | cons t rest => simp only [afterComma?, items count rest (Nat.le_of_succ_le within)]
  intro ts within
  simp only [Parser.separated, ← items 0 ts within]
  split
  · rfl
  · refine Outcome.bind_congr fun value rest replied => ?_
    have suffix := shrinks 0 ts
    rw [Outcome.rest_of_done replied] at suffix
    have collected :=
      Agree.many steps (fun _ => rfl) (fun _ _ _ => afterComma?_consumes shrinks)
        enough enoughMore 1
    exact collected.map (value :: ·) rest (Nat.le_trans suffix.length_le within)

end Agree

/-! ## Loops with a budget that suffices -/

/-- The rule with the number of tokens as its budget. -/
def ample (rule : Nat → Parser α) : Parser α := fun ts => rule ts.length ts

/-- A loop that grows a value, for as long as its step finds something to begin with. -/
def chainAll (step? : α → List Token → Option (Outcome α)) (value : α) : Parser α :=
  ample fun budget => chain step? budget value

/-- A loop that collects values, for as long as its step finds something to begin with. -/
def manyAll (step? : Nat → List Token → Option (Outcome α)) (count : Nat) : Parser (List α) :=
  ample fun budget => many step? budget count

/-- Items separated by commas, up to a closing parenthesis. -/
def separatedAll (item : Nat → Parser α) : Parser (List α) := ample (separated item)

theorem chainAll_of_none {step? : α → List Token → Option (Outcome α)} {value : α} {ts : List Token}
    (stop : step? value ts = none) : chainAll step? value ts = .done value ts :=
  chain_of_none stop ts.length

theorem manyAll_of_none {step? : Nat → List Token → Option (Outcome α)} {count : Nat}
    {ts : List Token} (stop : step? count ts = none) : manyAll step? count ts = .done [] ts :=
  many_of_none stop ts.length

theorem chainAll_of_some {step? : α → List Token → Option (Outcome α)}
    (stops : ∀ value, step? value [] = none)
    (consumes : ∀ value ts o, step? value ts = some o → o.Takes (fun _ => True) ts) {value : α}
    {ts : List Token} {o : Outcome α} (found : step? value ts = some o) :
    chainAll step? value ts = o.bind (chainAll step?) := by
  cases ts with
  | nil =>
    rw [stops value] at found
    cases found
  | cons t ts =>
    refine (chain_succ found).trans (Outcome.bind_congr fun last rest replied => ?_)
    have shorter := (consumes value (t :: ts) o found).length_lt replied
    exact Agree.chain (fun _ _ _ => rfl) stops consumes (Nat.le_of_lt_succ shorter)
      (Nat.le_refl _) last rest
      (Nat.le_refl _)

theorem manyAll_of_some {step? : Nat → List Token → Option (Outcome α)}
    (stops : ∀ count, step? count [] = none)
    (consumes : ∀ count ts o, step? count ts = some o → o.Takes (fun _ => True) ts) {count : Nat}
    {ts : List Token} {o : Outcome α} (found : step? count ts = some o) :
    manyAll step? count ts = o.bind fun value => (value :: ·) <$> manyAll step? (count + 1) := by
  cases ts with
  | nil =>
    rw [stops count] at found
    cases found
  | cons t ts =>
    refine (many_succ found).trans (Outcome.bind_congr fun value rest replied => ?_)
    have shorter := (consumes count (t :: ts) o found).length_lt replied
    have same := Agree.many (fun _ _ _ => rfl) stops consumes (Nat.le_of_lt_succ shorter)
      (Nat.le_refl _) (count + 1)
    exact congrArg (Outcome.map (value :: ·)) (same rest (Nat.le_refl _))

theorem separatedAll_eq {item : Nat → Parser α} (shrinks : ∀ count, (item count).Shrinks)
    {ts : List Token} (other : isNext .rightParen ts = false) :
    separatedAll item ts =
      (item 0 >>= fun value => (value :: ·) <$> manyAll (afterComma? item) 1) ts := by
  simp only [separatedAll, ample, separated, other, Bool.false_eq_true, if_false]
  refine Outcome.bind_congr fun value rest replied => ?_
  have suffix := shrinks 0 ts
  rw [Outcome.rest_of_done replied] at suffix
  have same : Agree rest.length (many (afterComma? item) ts.length 1)
      (many (afterComma? item) rest.length 1) :=
    Agree.many (fun _ _ _ => rfl) (fun _ => rfl) (fun _ _ _ => afterComma?_consumes shrinks)
      suffix.length_le
      (Nat.le_refl _) 1
  exact congrArg (Outcome.map (value :: ·)) (same rest (Nat.le_refl _))

end Parser

namespace Grammar

open Lox.Parser

/-! ## Expressions -/

section Expression

variable {bound budget more : Nat} {nested other : Parser Expr} (agree : Agree bound nested other)
  (shrinks : nested.Shrinks) (enough : bound ≤ budget) (enoughMore : bound ≤ more)

include agree shrinks

theorem primary_agree : Agree (bound + 1) (primary nested) (primary other) := by
  have grouping : Agree bound (groupingRest nested) (groupingRest other) :=
    agree.bind shrinks fun _ => agree_refl _ _
  intro ts within
  cases ts with
  | nil => rfl
  | cons t rest => simp only [primary, grouping rest (Nat.le_of_succ_le_succ within)]

include enough enoughMore

theorem callRest_agree (callee : Expr) :
    Agree bound (callRest budget nested callee) (callRest more other callee) := by
  have items : ∀ count, Agree bound (argument nested count) (argument other count) := fun count =>
    (agree_refl _ _).bind (shrinks_onlyIf (shrinks_reportHere _)) fun _ => agree
  have arguments := Agree.separated items (argument_shrinks shrinks) enough enoughMore
  exact arguments.bind (shrinks_separated (argument_shrinks shrinks) budget) fun _ => agree_refl _ _

theorem call_agree : Agree (bound + 1) (call budget nested) (call more other) := by
  refine (primary_agree agree shrinks).bind_consumed (primary_consumes shrinks) fun callee => ?_
  refine Agree.chain ?_ (fun _ => rfl) (fun _ _ _ found => call?_consumes shrinks found) enough
    enoughMore callee
  intro callee ts within
  cases ts with
  | nil => rfl
  | cons t rest =>
    simp only [call?,
      callRest_agree agree shrinks enough enoughMore callee rest (Nat.le_of_succ_le within)]

theorem unary_agree : Agree (bound + 1) (unary budget nested) (unary more other) := by
  intro ts within
  induction ts with
  | nil => exact call_agree agree shrinks enough enoughMore [] within
  | cons t rest ih =>
    simp only [unary, ih (Nat.le_of_succ_le within),
      call_agree agree shrinks enough enoughMore (t :: rest) within]

theorem operations_agree (rank : Nat) :
    Agree (bound + 1) (operations budget nested rank) (operations more other rank) := by
  induction rank with
  | zero => exact unary_agree agree shrinks enough enoughMore
  | succ rank ih =>
    have consumes := operations_consumes shrinks budget rank
    refine ih.bind_consumed consumes fun left => ?_
    refine Agree.chain ?_ (fun _ => rfl) (fun _ _ _ found => operation?_consumes consumes found)
      enough enoughMore left
    intro left ts within
    cases ts with
    | nil => simp only [operation?]
    | cons t rest =>
      rw [List.length_cons] at within
      simp only [operation?, ih rest (by omega)]

theorem assignment_agree :
    Agree (bound + 1) (assignment budget nested) (assignment more other) := by
  refine (operations_agree agree shrinks enough enoughMore _).bind_consumed
    (operations_consumes shrinks budget _) ?_
  intro target ts within
  cases ts with
  | nil => rfl
  | cons t rest =>
    have assigned : Agree bound (nested >>= assignTo target t) (other >>= assignTo target t) :=
      agree.bind shrinks fun _ => agree_refl _ _
    simp only [assignmentRest, assigned rest (Nat.le_of_succ_le within)]

end Expression

theorem assignment_nil (budget : Nat) (nested : Parser Expr) :
    assignment budget nested [] = .abort .expressionExpected [] := rfl

theorem expression_nil (budget : Nat) : expression budget [] = .abort .expressionExpected [] := by
  cases budget <;> rfl

/-- Budgets of at least the number of tokens give the same expression. -/
theorem expression_agree {bound budget more : Nat} (enough : bound ≤ budget)
    (enoughMore : bound ≤ more) : Agree bound (expression budget) (expression more) := by
  induction bound generalizing budget more with
  | zero =>
    intro ts within
    obtain rfl := List.eq_nil_of_length_eq_zero (Nat.le_zero.mp within)
    rw [expression_nil, expression_nil]
  | succ bound ih =>
    obtain ⟨budget, rfl⟩ : ∃ fewer, budget = fewer + 1 := ⟨budget - 1, by omega⟩
    obtain ⟨more, rfl⟩ : ∃ fewer, more = fewer + 1 := ⟨more - 1, by omega⟩
    have enough := Nat.le_of_succ_le_succ enough
    have enoughMore := Nat.le_of_succ_le_succ enoughMore
    exact assignment_agree (ih enough enoughMore) (expression_consumes budget).shrinks
      enough enoughMore

/-- An expression, with a budget that suffices. -/
def ampleExpression : Parser Expr := ample expression

/-- An expression of a level, with a budget that suffices. -/
def ampleLevel (level : Level) : Parser Expr := ample fun budget => parserAt budget level

theorem ampleExpression_consumes : ampleExpression.Consumes :=
  fun ts => expression_consumes ts.length ts

theorem ampleLevel_consumes (level : Level) : (ampleLevel level).Consumes :=
  fun ts => parserAt_consumes ts.length level ts

theorem expression_agree_ample (budget : Nat) : Agree budget (expression budget) ampleExpression :=
  fun ts within => expression_agree within (Nat.le_refl _) ts (Nat.le_refl _)

theorem parserAt_agree {bound budget more : Nat} (enough : bound ≤ budget)
    (enoughMore : bound ≤ more) (level : Level) :
    Agree (bound + 1) (parserAt budget level) (parserAt more level) := by
  have agree := expression_agree enough enoughMore
  have shrinks := (expression_consumes budget).shrinks
  cases level with
  | assignment => exact assignment_agree agree shrinks enough enoughMore
  | call => exact call_agree agree shrinks enough enoughMore
  | primary => exact primary_agree agree shrinks
  | _ => exact operations_agree agree shrinks enough enoughMore _

theorem parserAt_agree_ample (budget : Nat) (level : Level) :
    Agree (budget + 1) (parserAt budget level) (ampleLevel level) := by
  intro ts within
  cases ts with
  | nil => exact parserAt_agree (Nat.zero_le budget) (Nat.le_refl 0) level [] (Nat.zero_le 1)
  | cons t rest =>
    have within := Nat.le_of_succ_le_succ within
    exact parserAt_agree within (Nat.le_succ rest.length) level (t :: rest) (Nat.le_refl _)

/-! ### The rules of the levels -/

theorem ampleExpression_eq : ampleExpression = ampleLevel .assignment := by
  funext ts
  exact expression_agree (Nat.le_refl _) (Nat.le_succ _) ts (Nat.le_refl _)

theorem ampleLevel_primary : ampleLevel .primary = primary ampleExpression := by
  funext ts
  have agree := expression_agree_ample ts.length
  exact primary_agree agree (expression_consumes ts.length).shrinks ts (Nat.le_succ _)

theorem ampleLevel_assignment :
    ampleLevel .assignment = ampleLevel .or >>= assignmentRest ampleExpression := by
  funext ts
  change (operations ts.length (expression ts.length) Operator.lastRank ts).bind _ = _
  refine Outcome.bind_congr fun target rest replied => ?_
  have shrinks := (expression_consumes ts.length).shrinks
  have shorter := (operations_consumes shrinks ts.length _ ts).length_lt replied
  cases rest with
  | nil => simp only [assignmentRest]
  | cons t rest =>
    have assigned : Agree ts.length (expression ts.length >>= assignTo target t)
        (ampleExpression >>= assignTo target t) :=
      (expression_agree_ample ts.length).bind shrinks fun _ => agree_refl _ _
    rw [List.length_cons] at shorter
    simp only [assignmentRest, assigned rest (by omega)]

theorem ampleLevel_unary_operator {t : Token} {op : UnaryOp}
    (found : UnaryOp.ofKind? t.kind = some op) (rest : List Token) :
    ampleLevel .unary (t :: rest) = (ampleLevel .unary rest).map (.unary op t.toLexeme) := by
  have same :=
    parserAt_agree_ample (t :: rest).length .unary rest (by simp only [List.length_cons]; omega)
  rw [← same]
  change unary _ _ (t :: rest) = _
  simp only [unary, found]
  rfl

theorem ampleLevel_unary_operand {t : Token} (found : UnaryOp.ofKind? t.kind = none)
    (rest : List Token) : ampleLevel .unary (t :: rest) = ampleLevel .call (t :: rest) := by
  change unary _ _ (t :: rest) = call _ _ (t :: rest)
  simp only [unary, found]

/-- A step of the loop of a level, with a budget that suffices. -/
def ampleStep : Level → Expr → List Token → Option (Outcome Expr)
  | .call => fun callee ts => call? ts.length ampleExpression callee ts
  | level => operation? level.rank (ampleLevel level.next)

theorem ampleStep_nil (level : Level) (value : Expr) : ampleStep level value [] = none := by
  cases level <;> rfl

theorem ampleStep_consumes {level : Level} {value : Expr} {ts : List Token} {o : Outcome Expr}
    (found : ampleStep level value ts = some o) : o.Takes (fun _ => True) ts := by
  cases level with
  | call => exact call?_consumes ampleExpression_consumes.shrinks found
  | _ => exact operation?_consumes (ampleLevel_consumes _) found

/-- A step of the loop over calls finds the arguments of a call. -/
theorem ampleStep_call {t : Token} (opens : t.kind = .leftParen) (callee : Expr)
    (rest : List Token) :
    ampleStep .call callee (t :: rest) = some ((do
      let arguments ← separatedAll (argument ampleExpression)
      let paren ← require .parenAfterArguments
      return .call callee paren arguments : Parser Expr) rest) := by
  have shrinks := ampleExpression_consumes.shrinks
  have arguments := Agree.separated (fun _ => agree_refl rest.length _) (argument_shrinks shrinks)
    (Nat.le_succ rest.length) (Nat.le_refl rest.length)
  simp only [ampleStep, call?, opens, ↓reduceIte]
  refine congrArg some ?_
  change (separated (argument ampleExpression) (t :: rest).length rest).bind _ = _
  rw [List.length_cons, arguments rest (Nat.le_refl _)]
  rfl

theorem ampleStep_of_ne_call {level : Level} (other : level ≠ .call) :
    ampleStep level = operation? level.rank (ampleLevel level.next) := by
  cases level with
  | call => contradiction
  | _ => rfl

theorem stepAt_of_ne_call {budget : Nat} {level : Level} (other : level ≠ .call) :
    stepAt budget level = operation? level.rank (parserAt budget level.next) := by
  cases level with
  | call => contradiction
  | _ => rfl

theorem stepAt_nil (budget : Nat) (level : Level) (value : Expr) :
    stepAt budget level value [] = none := by
  cases level <;> rfl

theorem ampleStep_eq_stepAt {budget : Nat} (level : Level) (value : Expr) {ts : List Token}
    (enough : ts.length ≤ budget) : ampleStep level value ts = stepAt budget level value ts := by
  cases ts with
  | nil => rw [ampleStep_nil, stepAt_nil]
  | cons t ts =>
    have fewer : ts.length ≤ budget := Nat.le_of_succ_le enough
    by_cases calls : level = .call
    · subst calls
      have agree : Agree ts.length ampleExpression (expression budget) := fun us within =>
        (expression_agree_ample budget us (Nat.le_trans within fewer)).symm
      have arguments :=
        callRest_agree agree ampleExpression_consumes.shrinks (Nat.le_succ ts.length) fewer value ts
        (Nat.le_refl _)
      simp only [ampleStep, stepAt, call?, List.length_cons, arguments]
    · rw [ampleStep_of_ne_call calls, stepAt_of_ne_call calls]
      simp only [operation?, parserAt_agree_ample budget level.next ts (Nat.le_succ_of_le fewer)]

theorem ampleLevel_loop {level : Level} (loops : level.loops = true) :
    ampleLevel level = ampleLevel level.next >>= chainAll (ampleStep level) := by
  funext ts
  have looped := congrFun (@parserAt_eq_chain ts.length level loops) ts
  refine looped.trans (Outcome.bind_congr fun value rest replied => ?_)
  have suffix := (parserAt_consumes ts.length level.next).shrinks ts
  rw [Outcome.rest_of_done replied] at suffix
  have fewer := suffix.length_le
  have steps : ∀ value us, us.length ≤ rest.length →
      ampleStep level value us = stepAt ts.length level value us :=
    fun value us within => ampleStep_eq_stepAt level value (Nat.le_trans within fewer)
  have same := Agree.chain steps (ampleStep_nil level) (fun _ _ _ found => ampleStep_consumes found)
    (Nat.le_refl _)
    fewer value
  exact (same rest (Nat.le_refl _)).symm

/-! ## Statements -/

/-- The statements of a block, up to its closing brace. -/
def ampleBlock (statement : Parser Stmt) : Parser (List Stmt) := do
  let statements ← manyAll (declaration? statement) 0
  let _ ← require .braceAfterBlock
  return statements.filterMap id

/-- A function declaration, behind its keyword, by its parameters and its body. -/
def functionOf (params : Parser (List Lexeme)) (body : Parser (List Stmt)) : Parser Stmt := do
  let name ← require .functionName
  let _ ← require .parenAfterFunctionName
  let params ← params
  let _ ← require .parenAfterParameters
  let _ ← require .braceBeforeBody
  let body ← body
  return .function name params body

/-- A function declaration, behind its keyword. -/
def ampleFunction (statement : Parser Stmt) : Parser Stmt :=
  functionOf (separatedAll parameter) (ampleBlock statement)

/-- The rule for a statement that starts with the token, if it is a keyword or an opening brace. -/
def keywordRule (expression : Parser Expr) (nested : Position → Context → Parser Stmt)
    (position : Position) (context : Context) (t : Token) : Option (Parser Stmt) :=
  match position, t.kind with
  | .declaration, .fun => some (ampleFunction (nested .declaration .body))
  | .declaration, .var => some (variableDeclaration expression)
  | _, .break => some (breakStatement context t)
  | _, .for => some (forStatement expression (nested .branch context.loop))
  | _, .if => some (ifStatement expression (nested .branch context))
  | _, .print => some (printStatement expression)
  | _, .return => some (returnStatement context expression t)
  | _, .while => some (whileStatement expression (nested .branch context.loop))
  | _, .leftBrace => some (Stmt.block <$> ampleBlock (nested .declaration context))
  | _, _ => none

/-- A statement by its first token. -/
def ampleRule (expression : Parser Expr) (nested : Position → Context → Parser Stmt)
    (position : Position) (context : Context) : Parser Stmt
  | [] => expressionStatement expression []
  | t :: rest =>
    match keywordRule expression nested position context t with
    | some rule => rule rest
    | none => expressionStatement expression (t :: rest)

theorem ampleBlock_consumes {statement : Parser Stmt} (takes : statement.Takes EndsOrOpens) :
    (ampleBlock statement).Consumes :=
  fun ts => block_consumes takes ts.length ts

theorem functionOf_agree {bound : Nat} {params otherParams : Parser (List Lexeme)}
    {body otherBody : Parser (List Stmt)} (agree : Agree bound params otherParams)
    (shrinks : params.Shrinks) (bodies : Agree bound body otherBody) :
    Agree bound (functionOf params body) (functionOf otherParams otherBody) := by
  refine (agree_refl _ _).bind (shrinks_require _) fun _ =>
    (agree_refl _ _).bind (shrinks_require _) fun _ => ?_
  refine agree.bind shrinks fun _ => ?_
  refine (agree_refl _ _).bind (shrinks_require _) fun _ =>
    (agree_refl _ _).bind (shrinks_require _) fun _ => ?_
  intro ts within
  rw [bind_apply, bind_apply, bodies ts within]

section Statement

variable {bound budget more : Nat} {nested other : Parser Stmt} (agree : Agree bound nested other)

include agree

theorem recovering_agree : Agree bound (recovering nested) (recovering other) := by
  intro ts within
  simp only [recovering, agree ts within]

theorem block_agree (consumes : nested.Consumes) (enough : bound ≤ budget)
    (enoughMore : bound ≤ more) : Agree bound (block budget nested) (block more other) := by
  have steps : ∀ count ts, ts.length ≤ bound →
      declaration? nested count ts = declaration? other count ts := by
    intro count ts within
    simp only [declaration?, recovering_agree agree ts within]
  have consumed : ∀ count ts o, declaration? nested count ts = some o →
      o.Takes (fun _ => True) ts :=
    fun _ _ _ found => declaration?_consumes consumes found
  have collected := Agree.many steps (fun _ => rfl) consumed enough enoughMore 0
  have shrinks :=
    shrinks_many (fun count ts o found => (consumed count ts o found).rest_suffix) budget 0
  exact collected.bind shrinks fun _ => agree_refl _ _

theorem functionDeclaration_agree (consumes : nested.Consumes) (enough : bound ≤ budget)
    (enoughMore : bound ≤ more) :
    Agree bound (functionDeclaration budget nested) (functionDeclaration more other) :=
  functionOf_agree (Agree.separated (fun _ => agree_refl _ _) parameter_shrinks enough enoughMore)
    (shrinks_separated parameter_shrinks budget) (block_agree agree consumes enough enoughMore)

variable {expression otherExpression : Parser Expr}
    (expressions : Agree bound expression otherExpression)
  (shrinks : expression.Shrinks)

include expressions shrinks

omit agree in
theorem variableDeclaration_agree :
    Agree bound (variableDeclaration expression) (variableDeclaration otherExpression) := by
  refine (agree_refl _ _).bind (shrinks_require _) fun _ => ?_
  exact (expressions.ifNext _).bind (shrinks_ifNext _ shrinks) fun _ => agree_refl _ _

omit agree in
theorem expressionStatement_agree :
    Agree bound (expressionStatement expression) (expressionStatement otherExpression) :=
  expressions.bind shrinks fun _ => agree_refl _ _

omit agree in
theorem returnStatement_agree (context : Context) (keyword : Token) :
    Agree bound (returnStatement context expression keyword)
      (returnStatement context otherExpression keyword) := by
  refine (agree_refl _ _).bind (shrinks_onlyIf (shrinks_reportAt _ _)) fun _ => ?_
  exact (expressions.unlessNext _).bind (shrinks_unlessNext _ shrinks) fun _ => agree_refl _ _

omit agree in
theorem forInitializer_agree :
    Agree bound (forInitializer expression) (forInitializer otherExpression) := by
  have clause := (expressionStatement_agree expressions shrinks).map some
  intro ts within
  cases ts with
  | nil => exact clause [] within
  | cons t rest =>
    have declared :=
      (variableDeclaration_agree expressions shrinks).map some rest (Nat.le_of_succ_le within)
    simp only [forInitializer, clause (t :: rest) within, declared]

variable (statements : nested.Shrinks)

include statements

theorem ifStatement_agree :
    Agree bound (ifStatement expression nested) (ifStatement otherExpression other) := by
  refine (agree_refl _ _).bind (shrinks_require _) fun _ => expressions.bind shrinks fun _ => ?_
  refine (agree_refl _ _).bind (shrinks_require _) fun _ => agree.bind statements fun _ => ?_
  exact (agree.ifNext _).bind (shrinks_ifNext _ statements) fun _ => agree_refl _ _

theorem whileStatement_agree :
    Agree bound (whileStatement expression nested) (whileStatement otherExpression other) := by
  refine (agree_refl _ _).bind (shrinks_require _) fun _ => expressions.bind shrinks fun _ => ?_
  exact (agree_refl _ _).bind (shrinks_require _) fun _ => agree.bind statements fun _ =>
    agree_refl _ _

theorem forStatement_agree :
    Agree bound (forStatement expression nested) (forStatement otherExpression other) := by
  have initializers := forInitializer_agree expressions shrinks
  refine (agree_refl _ _).bind (shrinks_require _) fun _ => ?_
  refine initializers.bind (forInitializer_takes shrinks).shrinks fun _ => ?_
  refine (expressions.unlessNext _).bind (shrinks_unlessNext _ shrinks) fun _ => ?_
  refine (agree_refl _ _).bind (shrinks_require _) fun _ => ?_
  refine (expressions.unlessNext _).bind (shrinks_unlessNext _ shrinks) fun _ => ?_
  refine (agree_refl _ _).bind (shrinks_require _) fun _ => ?_
  exact agree.bind statements fun _ => agree_refl _ _

end Statement

/-- The rules for statements do the same if the parsers that they call do. -/
theorem statementRule_agree {bound budget more : Nat} {expression otherExpression : Parser Expr}
    (expressions : Agree (bound + 1) expression otherExpression) (shrinks : expression.Shrinks)
    {nested other : Position → Context → Parser Stmt}
    (agree : ∀ position context, Agree bound (nested position context) (other position context))
    (takes : ∀ position context, (nested position context).Takes EndsOrOpens)
    (enough : bound ≤ budget) (enoughMore : bound ≤ more) (position : Position)
    (context : Context) :
    Agree (bound + 1) (statementRule budget expression nested position context)
      (statementRule more otherExpression other position context) := by
  have fewer := expressions.mono (Nat.le_succ bound)
  intro ts within
  cases ts with
  | nil => exact expressionStatement_agree expressions shrinks [] within
  | cons t rest =>
    have less := Nat.le_of_succ_le_succ within
    have function :=
      functionDeclaration_agree (agree .declaration .body) (takes _ _).consumes enough enoughMore
    have declared := variableDeclaration_agree fewer shrinks
    have loops := forStatement_agree (agree .branch context.loop) fewer shrinks (takes _ _).shrinks
    have conditions := ifStatement_agree (agree .branch context) fewer shrinks (takes _ _).shrinks
    have printed : Agree bound (printStatement expression) (printStatement otherExpression) :=
      fewer.bind shrinks fun _ => agree_refl _ _
    have returned := returnStatement_agree fewer shrinks context t
    have repeated :=
      whileStatement_agree (agree .branch context.loop) fewer shrinks (takes _ _).shrinks
    have inner := block_agree (agree .declaration context) (takes _ _).consumes enough enoughMore
    have blocks := inner.map Stmt.block
    have plain := expressionStatement_agree expressions shrinks
    simp only [statementRule, function rest less, declared rest less, loops rest less,
      conditions rest less, printed rest less, returned rest less, repeated rest less,
      blocks rest less, plain (t :: rest) within]

theorem block_agree_ample {bound budget : Nat} {nested : Parser Stmt} (consumes : nested.Consumes)
    (enough : bound ≤ budget) : Agree bound (block budget nested) (ampleBlock nested) := by
  intro ts within
  exact block_agree (agree_refl _ _) consumes (Nat.le_trans within enough) (Nat.le_refl _) ts
    (Nat.le_refl _)

/-- The rules for statements with a budget do what they do without one. -/
theorem statementRule_agree_ample {bound budget : Nat} (expression : Parser Expr)
    {nested : Position → Context → Parser Stmt}
    (takes : ∀ position context, (nested position context).Takes EndsOrOpens)
    (enough : bound ≤ budget) (position : Position) (context : Context) :
    Agree (bound + 1) (statementRule budget expression nested position context)
      (ampleRule expression nested position context) := by
  intro ts within
  cases ts with
  | nil => rfl
  | cons t rest =>
    have less := Nat.le_of_succ_le_succ within
    have bodies : ∀ context, Agree bound (block budget (nested .declaration context))
        (ampleBlock (nested .declaration context)) :=
      fun context => block_agree_ample (takes _ _).consumes enough
    have params : Agree bound (separated parameter budget) (separatedAll parameter) :=
      fun ts within =>
      Agree.separated (fun _ => agree_refl _ _) parameter_shrinks (Nat.le_trans within enough)
        (Nat.le_refl _) ts (Nat.le_refl _)
    have function : Agree bound (functionDeclaration budget (nested .declaration .body))
        (ampleFunction (nested .declaration .body)) :=
      functionOf_agree params (shrinks_separated parameter_shrinks budget) (bodies .body)
    have blocks := (bodies context).map Stmt.block
    simp only [statementRule, ampleRule, keywordRule, function rest less, blocks rest less]
    rcases t with ⟨lexeme, kind⟩
    cases position <;> cases kind <;> rfl

theorem statement_nil (budget : Nat) (position : Position) (context : Context) :
    statement budget position context [] = .abort .expressionExpected [] := by
  cases budget with
  | zero => rfl
  | succ budget => rfl

/-- Budgets of at least the number of tokens give the same statement. -/
theorem statement_agree {bound budget more : Nat} (enough : bound ≤ budget)
    (enoughMore : bound ≤ more) (position : Position) (context : Context) :
    Agree bound (statement budget position context) (statement more position context) := by
  induction bound generalizing budget more position context with
  | zero =>
    intro ts within
    obtain rfl := List.eq_nil_of_length_eq_zero (Nat.le_zero.mp within)
    rw [statement_nil, statement_nil]
  | succ bound ih =>
    obtain ⟨budget, rfl⟩ : ∃ fewer, budget = fewer + 1 := ⟨budget - 1, by omega⟩
    obtain ⟨more, rfl⟩ : ∃ fewer, more = fewer + 1 := ⟨more - 1, by omega⟩
    have expressions := expression_agree enough enoughMore
    have enough := Nat.le_of_succ_le_succ enough
    have enoughMore := Nat.le_of_succ_le_succ enoughMore
    exact statementRule_agree expressions (expression_consumes _).shrinks (ih enough enoughMore)
      (statement_takes budget) enough enoughMore position context

/-- A statement, with a budget that suffices. -/
def ampleStatement (position : Position) (context : Context) : Parser Stmt :=
  ample fun budget => statement budget position context

theorem ampleStatement_takes (position : Position) (context : Context) :
    (ampleStatement position context).Takes EndsOrOpens :=
  fun ts => statement_takes ts.length position context ts

theorem statement_agree_ample (budget : Nat) (position : Position) (context : Context) :
    Agree budget (statement budget position context) (ampleStatement position context) :=
  fun ts within => statement_agree within (Nat.le_refl _) position context ts (Nat.le_refl _)

theorem ampleStatement_eq (position : Position) (context : Context) :
    ampleStatement position context =
      ampleRule ampleExpression ampleStatement position context := by
  funext ts
  have more := statement_agree (Nat.le_refl ts.length) (Nat.le_succ ts.length) position context ts
    (Nat.le_refl _)
  have rules :=
    statementRule_agree (expression_agree_ample (ts.length + 1)) (expression_consumes _).shrinks
    (statement_agree_ample ts.length) (statement_takes ts.length) (Nat.le_refl _)
      (Nat.le_refl _) position
    context
  have ample :=
    statementRule_agree_ample ampleExpression ampleStatement_takes (Nat.le_refl ts.length) position
    context
  exact more.trans ((rules ts (Nat.le_succ _)).trans (ample ts (Nat.le_succ _)))

/-! ## Used-up budgets -/

/-- An expression, where a budget that is used up comes to the given outcome. -/
def expressionOr (exhausted : Parser Expr) : Nat → Parser Expr
  | 0 => exhausted
  | budget + 1 => assignment budget (expressionOr exhausted budget)

/-- A statement, where budgets that are used up come to the given outcomes. -/
def statementOr (exhausted : Parser Expr) (exhaustedStatement : Position → Context → Parser Stmt) :
    Nat → Position → Context → Parser Stmt
  | 0 => exhaustedStatement
  | budget + 1 =>
    statementRule budget (expressionOr exhausted (budget + 1))
      (statementOr exhausted exhaustedStatement budget)

section UsedUp

variable (exhausted : Parser Expr) (exhaustedStatement : Position → Context → Parser Stmt)

/-- A budget of more than the number of tokens is not used up by an expression. -/
theorem expression_agree_or (budget : Nat) :
    Agree budget (expression (budget + 1)) (expressionOr exhausted (budget + 1)) := by
  induction budget with
  | zero =>
    intro ts within
    obtain rfl := List.eq_nil_of_length_eq_zero (Nat.le_zero.mp within)
    rw [expression, expressionOr, assignment_nil, assignment_nil]
  | succ budget ih =>
    rw [expression, expressionOr]
    exact assignment_agree ih (expression_consumes _).shrinks (Nat.le_succ _) (Nat.le_succ _)

/-- Nor is it by a statement. -/
theorem statement_agree_or (budget : Nat) (position : Position) (context : Context) :
    Agree budget (statement (budget + 1) position context)
      (statementOr exhausted exhaustedStatement (budget + 1) position context) := by
  induction budget generalizing position context with
  | zero =>
    intro ts within
    obtain rfl := List.eq_nil_of_length_eq_zero (Nat.le_zero.mp within)
    exact expressionStatement_agree (expression_agree_or exhausted 0)
      (expression_consumes _).shrinks [] within
  | succ budget ih =>
    rw [statement, statementOr]
    exact statementRule_agree (expression_agree_or exhausted (budget + 1))
      (expression_consumes _).shrinks ih
      (statement_takes _) (Nat.le_succ _) (Nat.le_succ _) position context

end UsedUp

end Grammar

end Lox
