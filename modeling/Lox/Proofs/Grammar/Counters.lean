import Lox.Proofs.Grammar.Declarations
import Lox.Proofs.Grammar.Ending

/-!
# A parser that counts loops and functions

Whether a `break` or a `return` may stand somewhere is known from what stands around it, the context
of a statement.  It can be found by counting as well: one more loop at the body of a loop and one
less behind it, whether the body could be parsed or not, and the same for functions.
`Counted.statement` is such a parser.  It works on tokens with ending tokens anywhere, as a cursor
does: the loops over declarations ask whether they are at the end, and what skips over the rest of a
broken statement stops there.  Where a count would fall below zero it has no outcome.

* `Counted.statement_refines`: from any depths it does with some tokens what `statement` does with
  their body in the context of these depths, it leaves what is behind the body, and it comes back to
  the depths it came from.
* `Counted.Sound`: so no count falls below zero, no ending token is taken, and success costs a
  token.
-/

namespace Lox.Grammar

open Lox.Parser

/-! ## Depths -/

/-- How many functions a statement is in, and how many loops within the innermost of them. -/
structure Depths where
  loops : Nat
  functions : Nat
deriving DecidableEq, Repr

namespace Depths

/-- Outside of any loop and function. -/
def top : Depths := ⟨0, 0⟩

/-- What a statement at these depths stands in. -/
def context (depths : Depths) : Context := ⟨depths.loops != 0, depths.functions != 0⟩

/-- One loop further in. -/
def enterLoop (depths : Depths) : Depths := { depths with loops := depths.loops + 1 }

/-- One loop further out, if there is a loop. -/
def leaveLoop? (depths : Depths) : Option Depths :=
  match depths.loops with
  | 0 => none
  | loops + 1 => some { depths with loops }

/-- One function further in, where no loop counts. -/
def enterFunction (depths : Depths) : Depths := ⟨0, depths.functions + 1⟩

/-- One function further out, if there is a function, and back in the loops around it. -/
def leaveFunction? (before depths : Depths) : Option Depths :=
  match depths.functions with
  | 0 => none
  | functions + 1 => some ⟨before.loops, functions⟩

theorem leaveLoop?_enterLoop (depths : Depths) : depths.enterLoop.leaveLoop? = some depths := rfl

theorem leaveFunction?_enterFunction (depths : Depths) :
    leaveFunction? depths depths.enterFunction = some depths := rfl

theorem context_enterLoop (depths : Depths) : depths.enterLoop.context = depths.context.loop := rfl

theorem context_enterFunction (depths : Depths) : depths.enterFunction.context = .body := rfl

end Depths

/-! ## The counting parser -/

/-- A parser that counts.  There is no outcome where a count would fall below zero. -/
def Counted (α : Type) : Type := Depths → List Token → Option (Outcome α × Depths)

/-- No token is left before the end. -/
def atEnd : List Token → Bool
  | [] => true
  | t :: _ => t.isEnding

/-- The tokens behind a statement that could not be parsed.  The end is not passed. -/
def skipFault : List Token → List Token
  | [] => []
  | t :: rest =>
    if t.isEnding then t :: rest
    else if t.kind = .semicolon then rest
    else match rest with
      | [] => []
      | next :: _ => if next.kind.startsDeclaration then rest else skipFault rest

namespace Counted

variable {α β : Type}

instance : Monad Counted where
  pure value := fun depths ts => some (.done value ts, depths)
  bind p next := fun depths ts =>
    match p depths ts with
    | none => none
    | some (o, after) =>
      match o.reply with
      | .done value rest =>
        (next value after rest).map fun result =>
          (⟨o.reports ++ result.1.reports, result.1.reply⟩, result.2)
      | .abort fault rest => some (⟨o.reports, .abort fault rest⟩, after)

/-- A rule that asks for the context and changes no count. -/
def inContext (p : Context → Parser α) : Counted α :=
  fun depths ts => some (p depths.context ts, depths)

/-- A rule that does not ask for the context. -/
def lift (p : Parser α) : Counted α := inContext fun _ => p

/-- Parses what stands behind a token of the given kind, if the first token is one. -/
def ifNext (kind : Kind) (p : Counted α) : Counted (Option α) := fun depths ts =>
  match ts with
  | t :: rest =>
    if t.kind = kind then (do return some (← p)) depths rest
      else some (.done none (t :: rest), depths)
  | [] => some (.done none [], depths)

/-- Changes the depths before a rule, and changes them back behind it, whether it was stopped or
not. -/
def within (enter : Depths → Depths) (leave? : Depths → Depths → Option Depths) (p : Counted α) :
    Counted α :=
  fun depths ts =>
    match p (enter depths) ts with
    | none => none
    | some (o, after) => (leave? depths after).map fun last => (o, last)

/-- The body of a loop. -/
def loopBody (p : Counted α) : Counted α := within Depths.enterLoop (fun _ => Depths.leaveLoop?) p

/-- The body of a function. -/
def functionBody (p : Counted α) : Counted α := within Depths.enterFunction Depths.leaveFunction? p

/-- Reports a fault that a statement was stopped by, and goes on behind the statement. -/
def recovering (statement : Counted Stmt) : Counted (Option Stmt) := fun depths ts =>
  (statement depths ts).map fun result =>
    match result.1.reply with
    | .done value rest => (⟨result.1.reports, .done (some value) rest⟩, result.2)
    | .abort fault rest =>
      (⟨result.1.reports ++ [⟨rest.head?, fault⟩], .done none (skipFault rest)⟩, result.2)

/-- Declarations up to where they halt. -/
def declarations (halts : List Token → Bool) (declaration : Counted (Option Stmt)) :
    Nat → Counted (List (Option Stmt))
  | 0 => pure []
  | budget + 1 => fun depths ts =>
    if halts ts then some (.done [] ts, depths)
    else (do return (← declaration) :: (← declarations halts declaration budget)) depths ts

/-- No declaration of a block is left. -/
def atBlockEnd (ts : List Token) : Bool := atEnd ts || isNext .rightBrace ts

/-- The statements of a block, up to its closing brace. -/
def block (budget : Nat) (statement : Counted Stmt) : Counted (List Stmt) := do
  let statements ← declarations atBlockEnd (recovering statement) budget
  let _ ← lift (require .braceAfterBlock)
  return statements.filterMap id

/-- A function declaration, behind its keyword. -/
def functionDeclaration (budget : Nat) (statement : Counted Stmt) : Counted Stmt := do
  let name ← lift (require .functionName)
  let _ ← lift (require .parenAfterFunctionName)
  let params ← lift (separated parameter budget)
  let _ ← lift (require .parenAfterParameters)
  let _ ← lift (require .braceBeforeBody)
  let body ← functionBody (block budget statement)
  return .function name params body

/-- An `if` statement, behind its keyword. -/
def ifStatement (expression : Parser Expr) (branch : Counted Stmt) : Counted Stmt := do
  let _ ← lift (require .parenAfterIf)
  let condition ← lift expression
  let _ ← lift (require .parenAfterIfCondition)
  let thenBranch ← branch
  let elseBranch ← ifNext .else branch
  return .if condition thenBranch elseBranch

/-- A `while` statement, behind its keyword. -/
def whileStatement (expression : Parser Expr) (body : Counted Stmt) : Counted Stmt := do
  let _ ← lift (require .parenAfterWhile)
  let condition ← lift expression
  let _ ← lift (require .parenAfterWhileCondition)
  return .while condition (← loopBody body)

/-- A `for` statement, behind its keyword. -/
def forStatement (expression : Parser Expr) (body : Counted Stmt) : Counted Stmt := do
  let _ ← lift (require .parenAfterFor)
  let initializer ← lift (forInitializer expression)
  let condition ← lift (unlessNext .semicolon expression)
  let _ ← lift (require .semicolonAfterCondition)
  let increment ← lift (unlessNext .rightParen expression)
  let _ ← lift (require .parenAfterClauses)
  return .forLoop initializer condition increment (← loopBody body)

/-- The rule for a statement that starts with the token, if it is a keyword or an opening brace. -/
def keywordRule? (budget : Nat) (expression : Parser Expr) (nested : Position → Counted Stmt)
    (position : Position) (t : Token) : Option (Counted Stmt) :=
  match position, t.kind with
  | .declaration, .fun => some (functionDeclaration budget (nested .declaration))
  | .declaration, .var => some (lift (variableDeclaration expression))
  | _, .break => some (inContext fun context => breakStatement context t)
  | _, .for => some (forStatement expression (nested .branch))
  | _, .if => some (ifStatement expression (nested .branch))
  | _, .print => some (lift (printStatement expression))
  | _, .return => some (inContext fun context => returnStatement context expression t)
  | _, .while => some (whileStatement expression (nested .branch))
  | _, .leftBrace => some (do return .block (← block budget (nested .declaration)))
  | _, _ => none

/-- A statement, by its first token. -/
def statementRule (budget : Nat) (expression : Parser Expr) (nested : Position → Counted Stmt)
    (position : Position) :
    Counted Stmt := fun depths ts =>
  match ts with
  | [] => lift (expressionStatement expression) depths []
  | t :: rest =>
    match keywordRule? budget expression nested position t with
    | some rule => rule depths rest
    | none => lift (expressionStatement expression) depths (t :: rest)

/-- A statement, or a declaration where one may stand. -/
def statement : Nat → Position → Counted Stmt
  | 0, _ => lift (abort .expressionExpected)
  | budget + 1, position =>
    statementRule budget (expression (budget + 1)) (statement budget) position

/-- A declaration, parsed or dropped. -/
def declaration (budget : Nat) : Counted (Option Stmt) := recovering (statement budget .declaration)

/-- The declarations of a program. -/
def program (budget : Nat) : Counted (List (Option Stmt)) :=
  declarations atEnd (declaration budget) budget

/-! ## Counting and knowing the context come to the same -/

/-- From the given depths the counting parser does before a tail what the other parser does with the
tokens alone.  It leaves the tail and comes back to these depths. -/
def Refines (depths : Depths) (p : Counted α) (q : Parser α) : Prop :=
  ∀ us tail, Endless us → IsTail tail →
    p depths (us ++ tail) = some ((q us).followedBy tail, depths)

variable {depths : Depths}

theorem refines_pure (value : α) : Refines depths (pure value) (pure value) := fun _ _ _ _ => rfl

theorem refines_inContext {p : Context → Parser α} (ends : (p depths.context).Ends) :
    Refines depths (inContext p) (p depths.context) := by
  intro us tail endless ended
  rw [inContext, ends us tail endless ended]

theorem refines_lift {p : Parser α} (ends : p.Ends) : Refines depths (lift p) p :=
  refines_inContext ends

theorem bind_of_done {p : Counted α} {next : α → Counted β} {ts rest : List Token} {o : Outcome α}
    {value : α} {last : Outcome β} {after final : Depths} (first : p depths ts = some (o, after))
    (replied : o.reply = .done value rest) (further : next value after rest = some (last, final)) :
    (p >>= next) depths ts = some (⟨o.reports ++ last.reports, last.reply⟩, final) := by
  simp only [bind, first, replied, further, Option.map_some]

theorem bind_of_abort {p : Counted α} {next : α → Counted β} {ts rest : List Token} {o : Outcome α}
    {fault : SyntaxFault} {after : Depths} (first : p depths ts = some (o, after))
    (replied : o.reply = .abort fault rest) :
    (p >>= next) depths ts = some (⟨o.reports, .abort fault rest⟩, after) := by
  simp only [bind, first, replied]

namespace Refines

variable {p : Counted α} {q : Parser α}

theorem bind (refines : Refines depths p q) (shrinks : q.Shrinks) {next : α → Counted β}
    {other : α → Parser β} (further : ∀ value, Refines depths (next value) (other value)) :
    Refines depths (p >>= next) (q >>= other) := by
  intro us tail endless ended
  have first := refines us tail endless ended
  cases replied : (q us).reply with
  | done value rest =>
    have second := further value rest tail (endless.of_done shrinks replied) ended
    rw [Outcome.followedBy_of_done replied] at first
    rw [bind_of_done first rfl second, Parser.bind_of_done replied, Outcome.followedBy_mk_append]
  | abort fault rest =>
    rw [Outcome.followedBy_of_abort replied] at first
    rw [bind_of_abort first rfl, Parser.bind_of_abort replied]
    rfl

theorem map (refines : Refines depths p q) (shrinks : q.Shrinks) (f : α → β) :
    Refines depths (do return f (← p)) (f <$> q) := by
  rw [← bind_pure_comp]
  exact refines.bind shrinks fun value => refines_pure (f value)

theorem ifNext (refines : Refines depths p q) (shrinks : q.Shrinks) {kind : Kind}
    (other : kind ≠ .endOfFile) : Refines depths (ifNext kind p) (Parser.ifNext kind q) := by
  intro us tail endless ended
  cases us with
  | nil =>
    cases tail with
    | nil => rfl
    | cons e others =>
      simp only [List.nil_append, Counted.ifNext, ended e others rfl, other.symm, ↓reduceIte]
      rfl
  | cons t us =>
    simp only [List.cons_append, Counted.ifNext, Parser.ifNext]
    split
    · exact refines.map shrinks some us tail endless.cons ended
    · rfl

/-- What is changed back behind a rule is as it was. -/
theorem within {enter : Depths → Depths} {leave? : Depths → Depths → Option Depths}
    (back : leave? depths (enter depths) = some depths) (refines : Refines (enter depths) p q) :
    Refines depths (within enter leave? p) q := by
  intro us tail endless ended
  simp only [Counted.within, refines us tail endless ended, back, Option.map_some]

theorem loopBody (refines : Refines depths.enterLoop p q) : Refines depths (loopBody p) q :=
  within depths.leaveLoop?_enterLoop refines

theorem functionBody (refines : Refines depths.enterFunction p q) :
    Refines depths (functionBody p) q :=
  within depths.leaveFunction?_enterFunction refines

end Refines

theorem skipFault_append {us tail : List Token} (endless : Endless us) (ended : IsTail tail) :
    skipFault (us ++ tail) = afterFault us ++ tail := by
  have stays : skipFault tail = tail := by
    cases tail with
    | nil => rfl
    | cons e others => simp [skipFault, Token.isEnding, ended e others rfl]
  fun_induction afterFault us with
  | case1 => exact stays
  | case2 t rest semicolon =>
    simp [skipFault, Token.isEnding, semicolon]
  | case3 t other =>
    have going : t.isEnding = false := beq_eq_false_iff_ne.mpr (endless t List.mem_cons_self)
    cases tail with
    | nil => simp [skipFault, going, other]
    | cons e others =>
      have quiet : e.kind.startsDeclaration = false := by
        rw [ended e others rfl]
        rfl
      simp only [List.cons_append, List.nil_append] at stays ⊢
      rw [skipFault]
      simp only [going, other, quiet, Bool.false_eq_true, ↓reduceIte, stays]
  | case4 t other next rest starts =>
    have going : t.isEnding = false := beq_eq_false_iff_ne.mpr (endless t List.mem_cons_self)
    simp [skipFault, going, other, starts]
  | case5 t other next rest goesOn ih =>
    have going : t.isEnding = false := beq_eq_false_iff_ne.mpr (endless t List.mem_cons_self)
    rw [List.cons_append, List.cons_append, skipFault]
    simp only [going, other, goesOn, Bool.false_eq_true, ↓reduceIte]
    exact ih endless.cons

theorem head?_append_followedBy (us tail : List Token) (fault : SyntaxFault) :
    (⟨(us ++ tail).head?, fault⟩ : Report) = Report.followedBy tail ⟨us.head?, fault⟩ := by
  rw [Report.followedBy, List.head?_append]

theorem recovering_refines {statement : Counted Stmt} {other : Parser Stmt}
    (refines : Refines depths statement other) (shrinks : other.Shrinks) :
    Refines depths (recovering statement) (Grammar.recovering other) := by
  intro us tail endless ended
  rw [recovering, refines us tail endless ended]
  cases replied : (other us).reply with
  | done tree rest =>
    rw [recovering_of_done replied, Outcome.followedBy_of_done replied]
    rfl
  | abort fault rest =>
    have suffix := shrinks us
    rw [Outcome.rest_of_abort replied] at suffix
    rw [recovering_of_abort replied, Outcome.followedBy_of_abort replied]
    simp only [Option.map_some, skipFault_append (endless.of_suffix suffix) ended,
      head?_append_followedBy]
    simp [Outcome.followedBy]

/-- A loop over declarations halts at the same tokens as the other one, if it does before any
tail. -/
theorem declarations_refines {halts ends : List Token → Bool}
    (same : ∀ us tail, Endless us → IsTail tail → halts (us ++ tail) = ends us)
    {declaration : Counted (Option Stmt)} {other : Parser (Option Stmt)}
    (refines : Refines depths declaration other) (shrinks : other.Shrinks)
    {step? : Nat → List Token → Option (Outcome (Option Stmt))}
    (steps : ∀ count us, step? count us = if ends us then none else some (other us))
    (budget count : Nat) :
    Refines depths (declarations halts declaration budget) (many step? budget count) := by
  induction budget generalizing count with
  | zero => exact refines_pure []
  | succ budget ih =>
    have both :
        Refines depths (do return (← declaration) :: (← declarations halts declaration budget))
        (other >>= fun tree? => (tree? :: ·) <$> many step? budget (count + 1)) := by
      refine refines.bind shrinks fun tree? => (ih (count + 1)).map ?_ (tree? :: ·)
      refine shrinks_many (fun count us o found => ?_) budget (count + 1)
      rw [steps] at found
      split at found
      · cases found
      · cases found
        exact shrinks us
    intro us tail endless ended
    simp only [declarations, many, same us tail endless ended, steps]
    cases ends us with
    | true => rfl
    | false => exact both us tail endless ended

theorem atEnd_append {us tail : List Token} (endless : Endless us) (ended : IsTail tail) :
    atEnd (us ++ tail) = us.isEmpty := by
  cases us with
  | cons t us => exact beq_eq_false_iff_ne.mpr (endless t List.mem_cons_self)
  | nil =>
    cases tail with
    | nil => rfl
    | cons e others => exact beq_iff_eq.mpr (ended e others rfl)

section Rules

variable {statement : Counted Stmt} {other : Parser Stmt}

theorem block_refines (budget : Nat) (refines : Refines depths statement other)
    (takes : other.Takes EndsOrOpens) :
    Refines depths (block budget statement) (Grammar.block budget other) := by
  have step := recovering_refines refines takes.shrinks
  have halts : ∀ us tail, Endless us → IsTail tail →
      atBlockEnd (us ++ tail) = (us.isEmpty || isNext .rightBrace us) := by
    intro us tail endless ended
    rw [atBlockEnd, atEnd_append endless ended, isNext_append_of_ended ended Kind.noConfusion]
  have trees : Refines depths (declarations atBlockEnd (recovering statement) budget)
      (many (declaration? other) budget 0) :=
    declarations_refines halts step (recovering_shrinks takes.shrinks) (fun _ _ => rfl) budget 0
  refine trees.bind ?_ fun trees => ?_
  · exact shrinks_many
      (fun _ _ _ found => (declaration?_consumes takes.consumes found).rest_suffix) budget 0
  · exact (refines_lift (ends_require _)).bind (shrinks_require _) fun _ => refines_pure _

theorem functionDeclaration_refines (budget : Nat)
    (refines : Refines depths.enterFunction statement other) (takes : other.Takes EndsOrOpens) :
    Refines depths (functionDeclaration budget statement)
      (Grammar.functionDeclaration budget other) := by
  have parameters := ends_separated parameter_ends parameter_shrinks budget
  refine (refines_lift (ends_require _)).bind (shrinks_require _) fun name => ?_
  refine (refines_lift (ends_require _)).bind (shrinks_require _) fun _ => ?_
  refine (refines_lift parameters).bind (shrinks_separated parameter_shrinks budget)
    fun params => ?_
  refine (refines_lift (ends_require _)).bind (shrinks_require _) fun _ => ?_
  refine (refines_lift (ends_require _)).bind (shrinks_require _) fun _ => ?_
  have body := (block_refines budget refines takes).functionBody
  exact body.map (block_consumes takes budget).shrinks (Stmt.function name params)

variable {expression : Parser Expr} (ends : expression.Ends) (shrinks : expression.Shrinks)

include ends shrinks

theorem ifStatement_refines (refines : Refines depths statement other) (takes : other.Shrinks) :
    Refines depths (ifStatement expression statement) (Grammar.ifStatement expression other) := by
  refine (refines_lift (ends_require _)).bind (shrinks_require _) fun _ => ?_
  refine (refines_lift ends).bind shrinks fun condition => ?_
  refine (refines_lift (ends_require _)).bind (shrinks_require _) fun _ => ?_
  refine refines.bind takes fun thenBranch => ?_
  refine (refines.ifNext takes Kind.noConfusion).bind (shrinks_ifNext _ takes) fun elseBranch => ?_
  exact refines_pure _

theorem whileStatement_refines (refines : Refines depths.enterLoop statement other)
    (takes : other.Shrinks) :
    Refines depths (whileStatement expression statement)
      (Grammar.whileStatement expression other) := by
  refine (refines_lift (ends_require _)).bind (shrinks_require _) fun _ => ?_
  refine (refines_lift ends).bind shrinks fun condition => ?_
  refine (refines_lift (ends_require _)).bind (shrinks_require _) fun _ => ?_
  exact refines.loopBody.bind takes fun body => refines_pure (Stmt.while condition body)

theorem forStatement_refines (refines : Refines depths.enterLoop statement other)
    (takes : other.Shrinks) :
    Refines depths (forStatement expression statement) (Grammar.forStatement expression other) := by
  have clause : ∀ kind, kind ≠ Kind.endOfFile →
      Refines depths (lift (unlessNext kind expression)) (unlessNext kind expression) :=
    fun _ other => refines_lift (ends.unlessNext other)
  refine (refines_lift (ends_require _)).bind (shrinks_require _) fun _ => ?_
  refine (refines_lift (forInitializer_ends ends shrinks)).bind
    (forInitializer_takes shrinks).shrinks fun first => ?_
  refine (clause .semicolon Kind.noConfusion).bind (shrinks_unlessNext _ shrinks)
    fun condition => ?_
  refine (refines_lift (ends_require _)).bind (shrinks_require _) fun _ => ?_
  refine (clause .rightParen Kind.noConfusion).bind (shrinks_unlessNext _ shrinks)
    fun increment => ?_
  refine (refines_lift (ends_require _)).bind (shrinks_require _) fun _ => ?_
  exact refines.loopBody.bind takes fun body =>
    refines_pure (Stmt.forLoop first condition increment body)

end Rules

section Dispatch

variable {budget : Nat} {expression : Parser Expr} {nested : Position → Counted Stmt}
  {other : Position → Context → Parser Stmt} {position : Position} {t : Token}

/-- A keyword or an opening brace decides on the same rule in both parsers, and success behind it
costs a token. -/
theorem keywordRule?_refines (ends : expression.Ends) (shrinks : expression.Shrinks)
    (refines : ∀ position depths, Refines depths (nested position) (other position depths.context))
    (takes : ∀ position context, (other position context).Takes EndsOrOpens) {rule : Counted Stmt}
    (found : keywordRule? budget expression nested position t = some rule) (depths : Depths) :
    ∃ q, Refines depths rule q ∧ q.Consumes ∧
      ∀ rest, Grammar.statementRule budget expression other position depths.context
        (t :: rest) = q rest := by
  unfold keywordRule? at found
  split at found
  next kind =>
    cases found
    have body := functionDeclaration_refines budget (refines .declaration depths.enterFunction)
      (takes .declaration _)
    exact ⟨_, body, (functionDeclaration_takes (takes _ _) budget).consumes, fun rest => by
      simp only [Grammar.statementRule, kind, Depths.context_enterFunction]⟩
  next kind =>
    cases found
    exact ⟨_, refines_lift (variableDeclaration_ends ends shrinks),
      (variableDeclaration_takes shrinks).consumes,
      fun rest => by simp only [Grammar.statementRule, kind]⟩
  next kind =>
    cases found
    exact ⟨_, refines_inContext (breakStatement_ends _ t), (breakStatement_takes _ t).consumes,
      fun rest => by simp only [Grammar.statementRule, kind]⟩
  next kind =>
    cases found
    have loop :=
      forStatement_refines ends shrinks (refines .branch depths.enterLoop) (takes _ _).shrinks
    exact ⟨_, loop, (forStatement_takes shrinks (takes _ _)).consumes,
      fun rest => by simp only [Grammar.statementRule, kind, Depths.context_enterLoop]⟩
  next kind =>
    cases found
    have branch := ifStatement_refines ends shrinks (refines .branch depths) (takes _ _).shrinks
    exact ⟨_, branch, (ifStatement_takes shrinks (takes _ _)).consumes,
      fun rest => by simp only [Grammar.statementRule, kind]⟩
  next kind =>
    cases found
    exact ⟨_, refines_lift (printStatement_ends ends shrinks),
      (printStatement_takes shrinks).consumes,
      fun rest => by simp only [Grammar.statementRule, kind]⟩
  next kind =>
    cases found
    exact ⟨_, refines_inContext (returnStatement_ends ends shrinks _ t),
      (returnStatement_takes shrinks _ t).consumes,
      fun rest => by simp only [Grammar.statementRule, kind]⟩
  next kind =>
    cases found
    have loop :=
      whileStatement_refines ends shrinks (refines .branch depths.enterLoop) (takes _ _).shrinks
    exact ⟨_, loop, (whileStatement_takes shrinks (takes _ _)).consumes,
      fun rest => by simp only [Grammar.statementRule, kind, Depths.context_enterLoop]⟩
  next kind =>
    cases found
    have consumes := block_consumes (takes .declaration depths.context) budget
    have inner :=
      (block_refines budget (refines .declaration depths) (takes _ _)).map
        consumes.shrinks Stmt.block
    exact ⟨_, inner, consumes.map Stmt.block, fun rest => by
      simp only [Grammar.statementRule, kind]⟩
  next => cases found

theorem statementRule_of_none (found : keywordRule? budget expression nested position t = none)
    (context : Context) (rest : List Token) :
    Grammar.statementRule budget expression other position context (t :: rest) =
      expressionStatement expression (t :: rest) := by
  rcases t with ⟨lexeme, kind⟩
  cases position <;> cases kind <;> first | rfl | cases found

theorem statementRule_refines (ends : expression.Ends) (shrinks : expression.Shrinks)
    (refines : ∀ position depths, Refines depths (nested position) (other position depths.context))
    (takes : ∀ position context, (other position context).Takes EndsOrOpens) (position : Position)
    (depths : Depths) :
    Refines depths (statementRule budget expression nested position)
      (Grammar.statementRule budget expression other position depths.context) := by
  have plain :
      Refines depths (lift (expressionStatement expression)) (expressionStatement expression) :=
    refines_lift (expressionStatement_ends ends shrinks)
  intro us tail endless ended
  cases us with
  | nil =>
    refine Eq.trans ?_ (plain [] tail endless ended)
    cases tail with
    | nil => rfl
    | cons e others =>
      have none : keywordRule? budget expression nested position e = none := by
        simp only [keywordRule?, ended e others rfl]
      simp only [List.nil_append, statementRule, none]
  | cons t us =>
    cases found : keywordRule? budget expression nested position t with
    | some rule =>
      obtain ⟨q, same, -, equal⟩ := keywordRule?_refines ends shrinks refines takes found depths
      rw [equal us]
      simp only [List.cons_append, statementRule, found]
      exact same us tail endless.cons ended
    | none =>
      rw [statementRule_of_none found]
      simp only [List.cons_append, statementRule, found]
      exact plain (t :: us) tail endless ended

end Dispatch

/-- From any depths, counting finds the statements that are found in the context of these depths. -/
theorem statement_refines (budget : Nat) (position : Position) (depths : Depths) :
    Refines depths (statement budget position)
      (Grammar.statement budget position depths.context) := by
  induction budget generalizing position depths with
  | zero => exact refines_lift (ends_abort _)
  | succ budget ih =>
    exact statementRule_refines (expression_ends _) (expression_consumes _).shrinks ih
      (statement_takes budget) position
      depths

theorem declaration_refines (budget : Nat) (depths : Depths) :
    Refines depths (declaration budget)
      (Grammar.recovering (Grammar.statement budget .declaration depths.context)) :=
  recovering_refines (statement_refines budget .declaration depths) (statement_takes _ _ _).shrinks

theorem program_refines (budget : Nat) :
    Refines .top (program budget)
      (many (programStep? (Grammar.statement budget .declaration .top)) budget 0) :=
  declarations_refines (fun _ _ endless ended => atEnd_append endless ended)
    (declaration_refines budget .top)
    (recovering_shrinks (statement_takes _ _ _).shrinks) (fun _ _ => rfl) budget 0

/-! ## Progress -/

/-- From any depths and with any tokens the rule has an outcome and comes back to these depths.  It
takes no ending token, and if it succeeds it takes a token. -/
def Sound (p : Counted α) : Prop :=
  ∀ depths ts, ∃ o taken, p depths ts = some (o, depths) ∧ ts = taken ++ o.rest ∧ Endless taken ∧
    ∀ value, o.reply = .done value o.rest → taken ≠ []

end Counted

theorem exists_tail (ts : List Token) : ∃ tail, ts = body ts ++ tail ∧ IsTail tail := by
  rcases exists_body_split ts with same | ⟨others, split, ends⟩
  · exact ⟨[], by rw [List.append_nil]; exact same, fun _ _ none => by cases none⟩
  · refine ⟨ending ts :: others, split, fun e _ first => ?_⟩
    cases first
    exact beq_iff_eq.mp ends

namespace Counted

variable {α : Type}

theorem sound_of_refines {p : Counted α} {q : Depths → Parser α}
    (refines : ∀ depths, Refines depths p (q depths)) (consumes : ∀ depths, (q depths).Consumes) :
    p.Sound := by
  intro depths ts
  obtain ⟨tail, split, ended⟩ := exists_tail ts
  have endless := endless_body ts
  obtain ⟨taken, same, costs⟩ := consumes depths (body ts)
  refine ⟨(q depths (body ts)).followedBy tail, taken, ?_, ?_, ?_, fun value replied => ?_⟩
  · exact (congrArg (p depths) split).trans (refines depths (body ts) tail endless ended)
  · rw [Outcome.rest_followedBy, ← List.append_assoc, ← same]
    exact split
  · rw [same] at endless
    exact fun t mem => endless t (List.mem_append_left _ mem)
  · obtain ⟨t, mem, -⟩ := costs value (Outcome.reply_of_followedBy_done replied)
    exact List.ne_nil_of_mem mem

theorem level_sound (budget : Nat) (level : Level) : (lift (parserAt budget level)).Sound :=
  sound_of_refines (fun _ => refines_lift (parserAt_ends budget level)) fun _ =>
    parserAt_consumes budget level

theorem statement_sound (budget : Nat) (position : Position) : (statement budget position).Sound :=
  sound_of_refines (statement_refines budget position) fun _ => (statement_takes _ _ _).consumes

theorem keywordRule?_sound {budget : Nat} {position : Position} {t : Token} {rule : Counted Stmt}
    (found : keywordRule? budget (expression (budget + 1))
      (statement budget) position t = some rule) :
    rule.Sound := by
  have decided := keywordRule?_refines (expression_ends _) (expression_consumes _).shrinks
    (statement_refines budget)
    (statement_takes budget) found
  exact sound_of_refines (fun depths => (decided depths).choose_spec.1) fun depths =>
    (decided depths).choose_spec.2.1

/-- A declaration that is not at the end takes a token, whether it is parsed or dropped. -/
theorem declaration_progress (budget : Nat) (depths : Depths) (ts : List Token) :
    ∃ reports tree? taken rest, declaration budget depths ts =
      some (⟨reports, .done tree? rest⟩, depths) ∧
      ts = taken ++ rest ∧ Endless taken ∧ (atEnd ts = false → taken ≠ []) := by
  obtain ⟨tail, split, ended⟩ := exists_tail ts
  have endless := endless_body ts
  have outcome := declaration_refines budget depths (body ts) tail endless ended
  by_cases empty : body ts = []
  · have ends : atEnd ts = true := by
      rw [split, atEnd_append endless ended, empty]
      rfl
    have nothing : Grammar.recovering (Grammar.statement budget .declaration depths.context) [] =
        ⟨[⟨none, .expressionExpected⟩], .done none []⟩ := by
      rw [Grammar.recovering, statement_nil]
      rfl
    rw [← split, empty, nothing] at outcome
    rw [empty] at split
    refine ⟨_, none, [], tail, outcome, split, endless_nil, fun going => ?_⟩
    rw [ends] at going
    cases going
  · have consumes := (statement_takes budget .declaration depths.context).consumes
    obtain ⟨reports, tree?, taken, rest, found, same, some⟩ := recovering_consumes consumes empty
    rw [← split, found] at outcome
    refine ⟨_, tree?, taken, rest ++ tail, outcome, ?_, ?_, fun _ => some⟩
    · rw [← List.append_assoc, ← same]
      exact split
    · rw [same] at endless
      exact fun t mem => endless t (List.mem_append_left rest mem)

/-! ## Termination -/

theorem length_body_le (ts : List Token) : (body ts).length ≤ ts.length :=
  (List.takeWhile_prefix _).length_le

/-- A statement does what the other parser does with the tokens before the end. -/
theorem statement_eq (budget : Nat) (position : Position) (depths : Depths) (ts : List Token) :
    ∃ tail, ts = body ts ++ tail ∧ statement budget position depths ts =
      some
        ((Grammar.statement budget position depths.context (body ts)).followedBy tail, depths) := by
  obtain ⟨tail, split, ended⟩ := exists_tail ts
  have found := statement_refines budget position depths (body ts) tail (endless_body ts) ended
  exact ⟨tail, split, by rw [← split] at found; exact found⟩

/-- With a budget of one for each token, more makes no difference. -/
theorem statement_settled {budget more : Nat} (position : Position) (depths : Depths)
    {ts : List Token} (enough : ts.length ≤ budget) (enoughMore : ts.length ≤ more) :
    statement budget position depths ts = statement more position depths ts := by
  obtain ⟨tail, split, ended⟩ := exists_tail ts
  have endless := endless_body ts
  have same :=
    statement_agree enough enoughMore position depths.context (body ts) (length_body_le ts)
  have first := statement_refines budget position depths (body ts) tail endless ended
  have second := statement_refines more position depths (body ts) tail endless ended
  rw [← split] at first second
  rw [first, second, same]

/-- A tail begins with the ending token, if there is one. -/
theorem head?_tail_getD {ts tail : List Token} (split : ts = body ts ++ tail) :
    tail.head?.getD (ending ts) = ending ts := by
  have behind : ts[(body ts).length]? = (body ts ++ tail)[(body ts).length]? :=
    congrArg (fun us : List Token => us[(body ts).length]?) split
  rw [List.getElem?_append_right (Nat.le_refl _), Nat.sub_self, ← List.head?_eq_getElem?] at behind
  rw [← behind]
  exact getElem?_body_length ts

/-- A report at the end is at the first token of the tail, or at the one that is understood to
follow. -/
theorem map_diagnostic_followedBy {tail : List Token} {last ending : Token}
    (first : tail.head?.getD last = ending) (reports : List Report) :
    (reports.map (Report.followedBy tail)).map (Report.diagnostic last) =
      reports.map (Report.diagnostic ending) := by
  rw [List.map_map]
  refine List.map_congr_left fun r _ => ?_
  cases placed : r.token? with
  | none =>
    simp only [Function.comp_apply, Report.diagnostic, Report.followedBy, placed,
      Option.none_or, first, Option.getD_none]
  | some t =>
    simp only [Function.comp_apply, Report.diagnostic, Report.followedBy, placed, Option.some_or,
      Option.getD_some]

/-- The loop over the declarations leaves the tail, outside of any loop and function, and finds the
program before. -/
theorem exists_program_eq {budget : Nat} {ts : List Token} (enough : ts.length ≤ budget) :
    ∃ reports trees tail, ts = body ts ++ tail ∧
      Grammar.program (body ts) = (trees.filterMap id, reports) ∧
      program budget .top ts =
        some (⟨reports.map (Report.followedBy tail), .done trees tail⟩, .top) := by
  obtain ⟨tail, split, ended⟩ := exists_tail ts
  obtain ⟨reports, trees, found⟩ := exists_ampleDeclarations (body ts)
  have outcome := program_refines budget (body ts) tail (endless_body ts) ended
  have within := Nat.le_trans (length_body_le ts) enough
  rw [← split, many_programStep?_agree_ample budget (body ts) within, found] at outcome
  exact ⟨reports, trees, tail, split, program_of_ample found, outcome⟩

/-- The loop over the declarations ends at the first ending token, outside of any loop and function.
What it found is what `parse` finds. -/
theorem program_outcome {budget : Nat} {ts : List Token} (enough : ts.length ≤ budget) :
    ∃ reports trees rest, program budget .top ts = some (⟨reports, .done trees rest⟩, .top) ∧
      ts = body ts ++ rest ∧
      parse ts = (trees.filterMap id, reports.map (Report.diagnostic (ending ts))) := by
  obtain ⟨reports, trees, tail, split, found, outcome⟩ := exists_program_eq enough
  refine ⟨_, trees, tail, outcome, split, ?_⟩
  rw [map_diagnostic_followedBy (head?_tail_getD split), parse_eq, found]

end Counted

end Lox.Grammar

namespace Lox

open Lox.Grammar Lox.Parser

/-- The parser ends on any tokens, with ending tokens anywhere among them.

A rule for expressions or statements that succeeds takes a token, and no rule takes an ending token.
A declaration takes a token unless it is at the end, whether it is parsed or dropped.  Behind every
rule the counts of loops and functions are what they were before it, and no count falls below zero.
Budgets of at least the number of tokens come to the same, and one of more than that is never used
up: whatever a used-up budget would come to makes no difference.  So the loop over the declarations
ends at the first ending token or at the end of the tokens. -/
theorem parser_always_progresses :
    (∀ budget level, (Counted.lift (parserAt budget level)).Sound) ∧
    (∀ budget position, (Counted.statement budget position).Sound) ∧
    (∀ budget position t rule,
      Counted.keywordRule? budget (expression (budget + 1))
        (Counted.statement budget) position t = some rule → rule.Sound) ∧
    (∀ budget depths ts, ∃ reports tree? taken rest,
      Counted.declaration budget depths ts = some (⟨reports, .done tree? rest⟩, depths) ∧
      ts = taken ++ rest ∧
        Endless taken ∧ (atEnd ts = false → taken ≠ [])) ∧
    (∀ budget position depths ts, ∃ tail, ts = body ts ++ tail ∧
      Counted.statement budget position depths ts =
      some ((statement budget position depths.context (body ts)).followedBy tail, depths)) ∧
    (∀ budget more (ts : List Token), ts.length ≤ budget → ts.length ≤ more →
      (∀ level, parserAt budget level ts = parserAt more level ts) ∧
      ∀ position depths, Counted.statement budget position depths ts =
        Counted.statement more position depths ts) ∧
    (∀ exhausted exhaustedStatement budget (ts : List Token), ts.length < budget →
      expressionOr exhausted budget ts = expression budget ts ∧
      ∀ position context, statementOr exhausted exhaustedStatement budget position context ts =
        statement budget position context ts) ∧
    (∀ budget ts, ts.length ≤ budget → ∃ reports trees rest,
      Counted.program budget .top ts = some (⟨reports, .done trees rest⟩, .top) ∧
      ts = body ts ++ rest ∧
        parse ts = (trees.filterMap id, reports.map (Report.diagnostic (ending ts)))) := by
  refine ⟨Counted.level_sound, Counted.statement_sound, ?_, Counted.declaration_progress,
    Counted.statement_eq, ?_, ?_, ?_⟩
  · intro budget position t rule found
    exact Counted.keywordRule?_sound found
  · intro budget more ts enough enoughMore
    refine ⟨fun level => parserAt_agree enough enoughMore level ts (Nat.le_succ _),
      fun position depths => ?_⟩
    exact Counted.statement_settled position depths enough enoughMore
  · intro exhausted exhaustedStatement budget ts more
    obtain ⟨budget, rfl⟩ := Nat.exists_eq_add_one.2 (Nat.zero_lt_of_lt more)
    have within := Nat.lt_succ_iff.1 more
    refine ⟨(expression_agree_or exhausted budget ts within).symm, fun position context => ?_⟩
    exact (statement_agree_or exhausted exhaustedStatement budget position context ts within).symm
  · intro budget ts enough
    exact Counted.program_outcome enough

/-- A loop in a function, neither of them closed before the first ending token: `fun f() { while (x)
{ break` -/
def unclosedLoop : List Token :=
  [Kind.fun, .identifier, .leftParen, .rightParen, .leftBrace, .while, .leftParen, .identifier,
    .rightParen, .leftBrace,
    .break, .endOfFile, .semicolon, .endOfFile].map fun kind => ⟨⟨"", 1⟩, kind⟩

theorem parser_always_progresses_unclosedLoop :
    atEnd unclosedLoop = false ∧
    (∃ reports tree? taken rest,
      Counted.declaration 14 ⟨3, 2⟩ unclosedLoop = some (⟨reports, .done tree? rest⟩, ⟨3, 2⟩) ∧
        unclosedLoop = taken ++ rest ∧ Endless taken ∧ taken ≠ []) ∧
    statementOr (abort .endExpected) (fun _ _ => abort .endExpected) 15 .declaration .top
      unclosedLoop =
      statement 15 .declaration .top unclosedLoop ∧
    ∃ reports trees rest, Counted.program 14 .top unclosedLoop =
      some (⟨reports, .done trees rest⟩, .top) ∧ unclosedLoop = body unclosedLoop ++ rest ∧
        parse unclosedLoop =
          (trees.filterMap id, reports.map (Report.diagnostic (ending unclosedLoop))) := by
  have going : atEnd unclosedLoop = false := rfl
  obtain ⟨-, -, -, declared, -, -, unexhausted, ends⟩ := parser_always_progresses
  obtain ⟨reports, tree?, taken, rest, found, split, endless, some⟩ :=
    declared 14 ⟨3, 2⟩ unclosedLoop
  have same :=
    (unexhausted (abort .endExpected) (fun _ _ => abort .endExpected) 15 unclosedLoop (by decide)).2
  exact ⟨going, ⟨reports, tree?, taken, rest, found, split, endless, some going⟩,
    same .declaration .top, ends 14 unclosedLoop (Nat.le_refl _)⟩

end Lox
