import Lox.Token.Basic

/-!
# Outcomes of parsing

A parser takes a list of tokens without an ending token.  It either is done with a value and the
tokens that are left, or it aborts, with the fault that stopped it and the tokens from that place
on.  Faults that do not stop it are reported on the way.  A report is at a token, or at the end of
the tokens.

`Parser.chain` and `Parser.many` repeat a step for as long as it finds something to begin with.
Their budget is a bound on the number of steps: each step takes at least one token, so any number of
at least the number of tokens will do.
-/

namespace Lox

/-- What a rule of the grammar requires next. -/
inductive Requirement where
  | variableName | functionName | parameterName
  | semicolonAfterVariable | semicolonAfterBreak | semicolonAfterCondition | semicolonAfterPrint
  | semicolonAfterReturn | semicolonAfterExpression
  | parenAfterFor | parenAfterIf | parenAfterWhile | parenAfterFunctionName
  | parenAfterClauses | parenAfterIfCondition | parenAfterWhileCondition | parenAfterParameters
  | parenAfterArguments | parenAfterGrouping
  | braceBeforeBody | braceAfterBlock
deriving DecidableEq, Repr

/-- What is wrong with a token where it stands. -/
inductive SyntaxFault where
  /-- A requirement is not met. -/
  | missing (requirement : Requirement)
  /-- No expression starts with the token. -/
  | expressionExpected
  /-- An expression that was to be the whole input ends before the token. -/
  | endExpected
  | breakOutsideLoop
  | returnOutsideFunction
  | tooManyParameters
  | tooManyArguments
  | invalidTarget
deriving DecidableEq, Repr

namespace Requirement

/-- The kind of token that meets a requirement. -/
def kind : Requirement → Kind
  | .variableName | .functionName | .parameterName => .identifier
  | .semicolonAfterVariable | .semicolonAfterBreak | .semicolonAfterCondition | .semicolonAfterPrint
  | .semicolonAfterReturn | .semicolonAfterExpression => .semicolon
  | .parenAfterFor | .parenAfterIf | .parenAfterWhile | .parenAfterFunctionName => .leftParen
  | .parenAfterClauses | .parenAfterIfCondition | .parenAfterWhileCondition | .parenAfterParameters
  | .parenAfterArguments | .parenAfterGrouping => .rightParen
  | .braceBeforeBody => .leftBrace
  | .braceAfterBlock => .rightBrace

/-- The wording of an unmet requirement. -/
def message : Requirement → String
  | .variableName => "Expected variable name."
  | .functionName => "Expected function name."
  | .parameterName => "Expected parameter name."
  | .semicolonAfterVariable => "Expected ';' after variable declaration."
  | .semicolonAfterBreak => "Expected ';' after 'break'."
  | .semicolonAfterCondition => "Expected ';' after loop condition."
  | .semicolonAfterPrint => "Expected ';' after value."
  | .semicolonAfterReturn => "Expected ';' after return value."
  | .semicolonAfterExpression => "Expected ';' after expression."
  | .parenAfterFor => "Expected '(' after 'for'."
  | .parenAfterIf => "Expected '(' after 'if'."
  | .parenAfterWhile => "Expected '(' after 'while'."
  | .parenAfterFunctionName => "Expected '(' after function name."
  | .parenAfterClauses => "Expected ')' after for clauses."
  | .parenAfterIfCondition => "Expected ')' after if condition."
  | .parenAfterWhileCondition => "Expected ')' after condition."
  | .parenAfterParameters => "Expected ')' after parameters."
  | .parenAfterArguments => "Expected ')' after arguments."
  | .parenAfterGrouping => "Expected ')' after expression."
  | .braceBeforeBody => "Expected '\x7b' before function body."
  | .braceAfterBlock => "Expected '\x7d' after block."

end Requirement

namespace SyntaxFault

/-- The wording of a fault. -/
def message : SyntaxFault → String
  | .missing requirement => requirement.message
  | .expressionExpected => "Expect expression."
  | .endExpected => "Expect end of expression."
  | .breakOutsideLoop => "Can't use 'break' outside of a loop."
  | .returnOutsideFunction => "Can't return from top-level code."
  | .tooManyParameters => "Can't have more than 255 parameters."
  | .tooManyArguments => "Can't have more than 255 arguments."
  | .invalidTarget => "Invalid assignment target."

end SyntaxFault

/-- A fault at a token, or at the end if there is no token. -/
structure Report where
  token? : Option Token
  fault : SyntaxFault
deriving DecidableEq, Repr

/-- How a parser finished: with a value, or stopped by a fault at the first of the tokens that are
left. -/
inductive Reply (α : Type) where
  | done (value : α) (rest : List Token)
  | abort (fault : SyntaxFault) (rest : List Token)

/-- The reports of a parser and how it finished. -/
structure Outcome (α : Type) where
  reports : List Report
  reply : Reply α

namespace Outcome

/-- Finished with a value and nothing to report. -/
def done {α : Type} (value : α) (rest : List Token) : Outcome α := ⟨[], .done value rest⟩

/-- Stopped by a fault, and nothing else to report. -/
def abort {α : Type} (fault : SyntaxFault) (rest : List Token) : Outcome α :=
  ⟨[], .abort fault rest⟩

/-- Goes on with the value and the tokens that are left. -/
def bind {α β : Type} (o : Outcome α) (next : α → List Token → Outcome β) : Outcome β :=
  match o.reply with
  | .done value rest =>
    let after := next value rest
    ⟨o.reports ++ after.reports, after.reply⟩
  | .abort fault rest => ⟨o.reports, .abort fault rest⟩

/-- Changes the value. -/
def map {α β : Type} (f : α → β) (o : Outcome α) : Outcome β :=
  o.bind fun value rest => .done (f value) rest

@[simp]
theorem done_bind {α β : Type} (value : α) (rest : List Token) (next : α → List Token → Outcome β) :
    (done value rest).bind next = next value rest := by
  simp [done, bind]

@[simp]
theorem abort_bind {α β : Type} (fault : SyntaxFault) (rest : List Token)
    (next : α → List Token → Outcome β) : (abort fault rest).bind next = abort fault rest := by
  simp [abort, bind]

@[simp]
theorem bind_done {α : Type} (o : Outcome α) : o.bind done = o := by
  obtain ⟨reports, reply⟩ := o
  cases reply <;> simp [done, bind]

theorem bind_assoc {α β γ : Type} (o : Outcome α) (f : α → List Token → Outcome β)
    (g : β → List Token → Outcome γ) :
    (o.bind f).bind g = o.bind fun value rest => (f value rest).bind g := by
  obtain ⟨reports, reply⟩ := o
  cases reply with
  | abort fault rest => simp [bind]
  | done value rest =>
    simp only [bind]
    cases (f value rest).reply <;> simp [List.append_assoc]

/-- Puts a report before the others. -/
def reporting {α : Type} (token? : Option Token) (fault : SyntaxFault) (o : Outcome α) :
    Outcome α :=
  ⟨⟨token?, fault⟩ :: o.reports, o.reply⟩

end Outcome

/-- A parser of a list of tokens. -/
def Parser (α : Type) : Type := List Token → Outcome α

namespace Parser

instance : Monad Parser where
  pure value := fun ts => .done value ts
  bind p next := fun ts => (p ts).bind next

@[simp]
theorem pure_apply {α : Type} (value : α) (ts : List Token) :
    (pure value : Parser α) ts = .done value ts := rfl

@[simp]
theorem bind_apply {α β : Type} (p : Parser α) (next : α → Parser β) (ts : List Token) :
    (p >>= next) ts = (p ts).bind next := rfl

@[simp]
theorem map_apply {α β : Type} (f : α → β) (p : Parser α) (ts : List Token) :
    (f <$> p) ts = (p ts).map f := rfl

instance : LawfulMonad Parser :=
  LawfulMonad.mk' Parser
    (fun p => funext fun ts => (p ts).bind_done)
    (fun value next => funext fun ts => Outcome.done_bind value ts next)
    (fun p f g => funext fun ts => (p ts).bind_assoc f g)

/-- Stops at the first token. -/
def abort {α : Type} (fault : SyntaxFault) : Parser α := fun ts => .abort fault ts

/-- Reports a fault at a token. -/
def reportAt (token : Token) (fault : SyntaxFault) : Parser Unit := fun ts =>
  (Outcome.done () ts).reporting (some token) fault

/-- Reports a fault at the first token, or at the end if there is none. -/
def reportHere (fault : SyntaxFault) : Parser Unit :=
  fun ts => (Outcome.done () ts).reporting ts.head? fault

/-- Does something only if a condition holds. -/
def onlyIf (condition : Bool) (p : Parser Unit) : Parser Unit := if condition then p else pure ()

/-- The first token is of the given kind. -/
def isNext (kind : Kind) : List Token → Bool
  | t :: _ => t.kind == kind
  | [] => false

/-- Takes the token that a rule requires. -/
def require (requirement : Requirement) : Parser Lexeme
  | t :: rest =>
    if t.kind = requirement.kind then .done t.toLexeme rest
      else .abort (.missing requirement) (t :: rest)
  | [] => .abort (.missing requirement) []

/-- Parses nothing if the first token is of the given kind. -/
def unlessNext {α : Type} (kind : Kind) (p : Parser α) : Parser (Option α) := fun ts =>
  if isNext kind ts then .done none ts else (some <$> p) ts

/-- Parses what stands behind a token of the given kind, if the first token is one. -/
def ifNext {α : Type} (kind : Kind) (p : Parser α) : Parser (Option α) := fun ts =>
  match ts with
  | t :: rest => if t.kind = kind then (some <$> p) rest else .done none (t :: rest)
  | [] => .done none []

/-- Repeats a step that grows a value, for as long as it finds something to begin with. -/
def chain {α : Type} (step? : α → List Token → Option (Outcome α)) : Nat → α → Parser α
  | 0, value => pure value
  | budget + 1, value => fun ts =>
    match step? value ts with
    | none => .done value ts
    | some o => o.bind (chain step? budget)

/-- Repeats a step and collects the values, for as long as it finds something to begin with.  The
step is told how many values there are before it. -/
def many {α : Type} (step? : Nat → List Token → Option (Outcome α)) : Nat → Nat → Parser (List α)
  | 0, _ => pure []
  | budget + 1, count => fun ts =>
    match step? count ts with
    | none => .done [] ts
    | some o => o.bind fun value => (value :: ·) <$> many step? budget (count + 1)

/-- An item after a comma. -/
def afterComma? {α : Type} (item : Nat → Parser α) (count : Nat) : List Token → Option (Outcome α)
  | t :: rest => if t.kind = .comma then some (item count rest) else none
  | [] => none

/-- Items separated by commas, up to a closing parenthesis, which is not taken.  An item is told how
many there are before it. -/
def separated {α : Type} (item : Nat → Parser α) (budget : Nat) : Parser (List α) := fun ts =>
  if isNext .rightParen ts then .done [] ts
  else (item 0 ts).bind fun value => (value :: ·) <$> many (afterComma? item) budget 1

end Parser

end Lox
