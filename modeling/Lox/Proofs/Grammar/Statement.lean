import Lox.Proofs.Grammar.Expression

/-!
# Parsing statements is deriving statements

`statement` finds a statement cleanly exactly where the grammar derives one.

* `statement_sound`: what it finds, the tokens that it takes derive; and if they are dangling, no
  `else` follows.  The second half is what makes the induction on the budget go through: between an
  `if` and its `else` stands something that is not dangling.
* `Clause.Derives.found`: it finds what the tokens derive, before anything but an `else` behind a
  dangling statement, with a budget of at least the number of tokens.
-/

namespace Lox.Grammar

open Lox.Parser

theorem recovering_eq_done_iff {statement : Parser Stmt} {ts rest : List Token}
    {tree? : Option Stmt} :
    recovering statement ts = .done tree? rest ↔
      ∃ tree, statement ts = .done tree rest ∧ tree? = some tree := by
  unfold recovering
  generalize statement ts = o
  obtain ⟨reports, reply⟩ := o
  cases reply with
  | done tree middle =>
    simp only [Outcome.done, Outcome.mk.injEq, Reply.done.injEq]
    constructor
    · rintro ⟨rfl, rfl, rfl⟩
      exact ⟨tree, ⟨rfl, rfl, rfl⟩, rfl⟩
    · rintro ⟨_, ⟨rfl, rfl, rfl⟩, rfl⟩
      exact ⟨rfl, rfl, rfl⟩
  | abort fault middle => simp [Outcome.done]

/-- The clause of a statement in a position. -/
def Position.clause : Position → Context → Bool → Stmt → Clause
  | .declaration => .declaration
  | .branch => .statement

/-! ## Soundness -/

/-- What the parser finds cleanly, the tokens that it takes derive.  No `else` is left behind a
dangling statement. -/
def StatementSound (position : Position) (context : Context) (p : Parser Stmt) : Prop :=
  ∀ ts tree rest, p ts = .done tree rest → ∃ us dangling, ts = us ++ rest ∧
    (position.clause context dangling tree).Derives us ∧
    (dangling = true → isNext .else rest = false)

/-- A statement may stand in any position. -/
theorem Clause.Derives.at {context : Context} {dangling : Bool} {tree : Stmt} {ts : List Token}
    (derives : (Clause.statement context dangling tree).Derives ts) (position : Position) :
    (position.clause context dangling tree).Derives ts := by
  cases position with
  | declaration => exact .statement derives
  | branch => exact derives

section Soundness

variable {budget : Nat} {context : Context} {expression : Parser Expr} {ts rest : List Token}

theorem optional_sound {kind : Kind} {tree? : Option Expr} (sound : expression.Sound Expression)
    (clean : unlessNext kind expression ts = .done tree? rest) :
    ∃ us, ts = us ++ rest ∧ OptionalExpression tree? us := by
  rcases unlessNext_eq_done_iff.mp clean with ⟨-, rfl, rfl⟩ | ⟨-, tree, found, rfl⟩
  · exact ⟨[], rfl, .absent⟩
  · obtain ⟨us, rfl, derives⟩ := sound.split found
    exact ⟨us, rfl, .present derives⟩

theorem variableDeclaration_sound {tree : Stmt} (sound : expression.Sound Expression)
    (keyword : Word .var) (clean : variableDeclaration expression ts = .done tree rest) :
    ∃ us, ts = us ++ rest ∧ VariableDeclaration tree (keyword.token :: us) := by
  simp only [variableDeclaration, bind_eq_done_iff, require_eq_done_iff, ifNext_eq_done_iff,
    pure_apply, Outcome.done_eq_done_iff] at clean
  obtain ⟨_, _, ⟨name, rfl, rfl⟩, initializer, middle, found, _, _, ⟨semicolon, rfl, rfl⟩,
    rfl, rfl⟩ := clean
  rcases found with ⟨equal, us, tree, rfl, found, rfl⟩ | ⟨-, rfl, rfl⟩
  · obtain ⟨vs, rfl, derives⟩ := sound.split found
    exact ⟨name.token :: equal.token :: vs ++ [semicolon.token], by simp,
      .initialized keyword name equal semicolon derives⟩
  · exact ⟨[name.token, semicolon.token], rfl, .bare keyword name semicolon⟩

theorem expressionStatement_sound (sound : expression.Sound Expression) :
    (expressionStatement expression).Sound ExpressionStatement := by
  intro ts tree rest clean
  simp only [expressionStatement, bind_eq_done_iff, require_eq_done_iff, pure_apply,
    Outcome.done_eq_done_iff] at clean
  obtain ⟨value, _, found, _, _, ⟨semicolon, rfl, rfl⟩, rfl, rfl⟩ := clean
  obtain ⟨us, rfl, derives⟩ := sound.split found
  exact ⟨us ++ [semicolon.token], by simp, .mk semicolon derives⟩

theorem forInitializer_sound (sound : expression.Sound Expression) :
    (forInitializer expression).Sound Initializer := by
  intro ts tree? rest clean
  have expressionCase : ∀ {ts}, (some <$> expressionStatement expression) ts = .done tree? rest →
      ∃ us, ts = us ++ rest ∧ Initializer tree? us := by
    intro ts clean
    obtain ⟨tree, found, rfl⟩ := map_eq_done_iff.mp clean
    obtain ⟨us, rfl, derives⟩ := (expressionStatement_sound sound).split found
    exact ⟨us, rfl, .expression derives⟩
  cases ts with
  | nil => exact expressionCase clean
  | cons t ts =>
    simp only [forInitializer] at clean
    split at clean
    case h_1 kind =>
      obtain ⟨rfl, rfl⟩ := Outcome.done_eq_done_iff.mp clean
      exact ⟨[t], rfl, .absent ⟨t, kind⟩⟩
    case h_2 kind =>
      obtain ⟨tree, found, rfl⟩ := map_eq_done_iff.mp clean
      obtain ⟨us, rfl, derives⟩ := variableDeclaration_sound sound ⟨t, kind⟩ found
      exact ⟨t :: us, rfl, .variable derives⟩
    case h_3 => exact expressionCase clean

theorem parameter_sound (count : Nat) :
    (parameter count).Sound fun name ts => count < 255 ∧ Parameter name ts := by
  intro ts name rest clean
  simp only [parameter, bind_eq_done_iff, onlyIf_reportHere_eq_done_iff, require_eq_done_iff]
    at clean
  obtain ⟨_, _, ⟨less, rfl⟩, word, rfl, rfl⟩ := clean
  exact ⟨[word.token], rfl, Nat.lt_of_not_le (of_decide_eq_false less), .mk word⟩

/-- Declarations one after the other, none of which was dropped. -/
theorem derives_of_pieces {trees? : List (Option Stmt)} {count : Nat}
    (pieces : Pieces (fun _ tree? us => ∃ tree dangling, tree? = some tree ∧
      (Clause.declaration context dangling tree).Derives us) count trees? ts) :
    (Clause.declarations context (trees?.filterMap id)).Derives ts := by
  induction pieces with
  | nil => exact .nil
  | cons piece _ ih =>
    obtain ⟨tree, dangling, rfl, derives⟩ := piece
    exact .cons derives ih

theorem declarations_sound {statement : Parser Stmt}
    (sound : StatementSound .declaration context statement)
    {step? : Nat → List Token → Option (Outcome (Option Stmt))}
    (recovers : ∀ count ts o, step? count ts = some o → o = recovering statement ts)
    {trees? : List (Option Stmt)} {count : Nat}
    (clean : many step? budget count ts = .done trees? rest) :
    ∃ us, ts = us ++ rest ∧ (Clause.declarations context (trees?.filterMap id)).Derives us := by
  have piece : ∀ count ts tree? rest, step? count ts = some (.done tree? rest) →
      ∃ us, ts = us ++ rest ∧ ∃ tree dangling, tree? = some tree ∧
        (Clause.declaration context dangling tree).Derives us := by
    intro count ts tree? rest step
    obtain ⟨tree, found, rfl⟩ := recovering_eq_done_iff.mp (recovers count ts _ step).symm
    obtain ⟨us, dangling, rfl, derives, -⟩ := sound ts tree rest found
    exact ⟨us, rfl, tree, dangling, rfl, derives⟩
  obtain ⟨us, rfl, pieces⟩ := pieces_of_many piece clean
  exact ⟨us, rfl, derives_of_pieces pieces⟩

theorem block_sound {statement : Parser Stmt}
    (sound : StatementSound .declaration context statement) {trees : List Stmt}
    (clean : block budget statement ts = .done trees rest) :
    ∃ (us : List Token) (right : Word .rightBrace), ts = us ++ right.token :: rest ∧
      (Clause.declarations context trees).Derives us := by
  simp only [block, bind_eq_done_iff, require_eq_done_iff, pure_apply,
    Outcome.done_eq_done_iff] at clean
  obtain ⟨trees?, _, found, _, _, ⟨right, rfl, rfl⟩, rfl, rfl⟩ := clean
  have recovers : ∀ count ts o, declaration? statement count ts = some o →
      o = recovering statement ts := by
    intro count ts o step
    unfold declaration? at step
    split at step
    · contradiction
    · exact (Option.some.inj step).symm
  obtain ⟨us, rfl, derives⟩ := declarations_sound sound recovers found
  exact ⟨us, right, rfl, derives⟩

theorem functionDeclaration_sound {statement : Parser Stmt} {tree : Stmt}
    (sound : StatementSound .declaration .body statement) (keyword : Word .fun)
    (clean : functionDeclaration budget statement ts = .done tree rest) :
    ∃ us, ts = us ++ rest ∧
      (Clause.declaration context false tree).Derives (keyword.token :: us) := by
  simp only [functionDeclaration, bind_eq_done_iff, require_eq_done_iff, pure_apply,
    Outcome.done_eq_done_iff] at clean
  obtain ⟨_, _, ⟨name, rfl, rfl⟩, _, _, ⟨opening, rfl, rfl⟩, params, _, foundParams,
    _, _, ⟨closing, rfl, rfl⟩, _, _, ⟨left, rfl, rfl⟩, body, _, foundBody, rfl, rfl⟩ := clean
  obtain ⟨us, rfl, listed, bound⟩ := (separated_sound parameter_sound budget).split foundParams
  obtain ⟨vs, right, rfl, derives⟩ := block_sound sound foundBody
  exact ⟨name.token :: opening.token :: us ++ closing.token :: left.token :: vs ++ [right.token],
    by simp, .functionDeclaration keyword name opening closing left right listed bound derives⟩

theorem printStatement_sound {tree : Stmt} (sound : expression.Sound Expression)
    (keyword : Word .print) (clean : printStatement expression ts = .done tree rest) :
    ∃ us, ts = us ++ rest ∧
      (Clause.statement context false tree).Derives (keyword.token :: us) := by
  simp only [printStatement, bind_eq_done_iff, require_eq_done_iff, pure_apply,
    Outcome.done_eq_done_iff] at clean
  obtain ⟨value, _, found, _, _, ⟨semicolon, rfl, rfl⟩, rfl, rfl⟩ := clean
  obtain ⟨us, rfl, derives⟩ := sound.split found
  exact ⟨us ++ [semicolon.token], by simp, .printStatement keyword semicolon derives⟩

theorem breakStatement_sound {tree : Stmt} (keyword : Word .break)
    (clean : breakStatement context keyword.token ts = .done tree rest) :
    ∃ us, ts = us ++ rest ∧
      (Clause.statement context false tree).Derives (keyword.token :: us) := by
  simp only [breakStatement, bind_eq_done_iff, onlyIf_reportAt_eq_done_iff, require_eq_done_iff,
    pure_apply, Outcome.done_eq_done_iff, Bool.not_eq_false'] at clean
  obtain ⟨_, _, ⟨inLoop, rfl⟩, _, _, ⟨semicolon, rfl, rfl⟩, rfl, rfl⟩ := clean
  exact ⟨[semicolon.token], rfl, .breakStatement keyword semicolon inLoop⟩

theorem returnStatement_sound {tree : Stmt} (sound : expression.Sound Expression)
    (keyword : Word .return)
    (clean : returnStatement context expression keyword.token ts = .done tree rest) :
    ∃ us, ts = us ++ rest ∧
      (Clause.statement context false tree).Derives (keyword.token :: us) := by
  simp only [returnStatement, bind_eq_done_iff, onlyIf_reportAt_eq_done_iff, require_eq_done_iff,
    pure_apply, Outcome.done_eq_done_iff, Bool.not_eq_false'] at clean
  obtain ⟨_, _, ⟨inFunction, rfl⟩, value, _, found, _, _, ⟨semicolon, rfl, rfl⟩, rfl, rfl⟩ := clean
  obtain ⟨us, rfl, derives⟩ := optional_sound sound found
  exact ⟨us ++ [semicolon.token], by simp, .returnStatement keyword semicolon inFunction derives⟩

theorem ifStatement_sound {branch : Parser Stmt} {tree : Stmt} (sound : expression.Sound Expression)
    (branchSound : StatementSound .branch context branch) (keyword : Word .if)
    (clean : ifStatement expression branch ts = .done tree rest) :
    ∃ us dangling, ts = us ++ rest ∧
      (Clause.statement context dangling tree).Derives (keyword.token :: us) ∧
      (dangling = true → isNext .else rest = false) := by
  simp only [ifStatement, bind_eq_done_iff, require_eq_done_iff, ifNext_eq_done_iff, pure_apply,
    Outcome.done_eq_done_iff] at clean
  obtain ⟨_, _, ⟨opening, rfl, rfl⟩, condition, _, found, _, _, ⟨closing, rfl, rfl⟩,
    thenBranch, middle, foundThen, elseBranch, _, foundElse, rfl, rfl⟩ := clean
  obtain ⟨us, rfl, derives⟩ := sound.split found
  obtain ⟨vs, dangling, rfl, thenDerives, follows⟩ := branchSound _ _ _ foundThen
  rcases foundElse with ⟨otherwise, _, elseTree, rfl, foundElse, rfl⟩ | ⟨noElse, rfl, rfl⟩
  · obtain ⟨ws, elseDangling, rfl, elseDerives, elseFollows⟩ := branchSound _ _ _ foundElse
    -- an `else` follows the first branch, which cannot be dangling then
    have closed : dangling = false := by
      cases dangling with
      | false => rfl
      | true =>
        have noElse := follows rfl
        rw [isNext_cons.mpr otherwise.kind_eq] at noElse
        contradiction
    subst closed
    exact ⟨opening.token :: us ++ closing.token :: vs ++ otherwise.token :: ws, elseDangling,
      by simp, .ifElseStatement keyword opening closing otherwise derives thenDerives elseDerives,
      elseFollows⟩
  · exact ⟨opening.token :: us ++ closing.token :: vs, true, by simp,
      .ifStatement keyword opening closing derives thenDerives, fun _ => noElse⟩

theorem whileStatement_sound {body : Parser Stmt} {tree : Stmt}
    (sound : expression.Sound Expression) (bodySound : StatementSound .branch context.loop body)
    (keyword : Word .while) (clean : whileStatement expression body ts = .done tree rest) :
    ∃ us dangling, ts = us ++ rest ∧
      (Clause.statement context dangling tree).Derives (keyword.token :: us) ∧
      (dangling = true → isNext .else rest = false) := by
  simp only [whileStatement, bind_eq_done_iff, require_eq_done_iff, pure_apply,
    Outcome.done_eq_done_iff] at clean
  obtain ⟨_, _, ⟨opening, rfl, rfl⟩, condition, _, found, _, _, ⟨closing, rfl, rfl⟩,
    bodyTree, _, foundBody, rfl, rfl⟩ := clean
  obtain ⟨us, rfl, derives⟩ := sound.split found
  obtain ⟨vs, dangling, rfl, bodyDerives, follows⟩ := bodySound _ _ _ foundBody
  exact ⟨opening.token :: us ++ closing.token :: vs, dangling, by simp,
    .whileStatement keyword opening closing derives bodyDerives, follows⟩

theorem forStatement_sound {body : Parser Stmt} {tree : Stmt} (sound : expression.Sound Expression)
    (bodySound : StatementSound .branch context.loop body) (keyword : Word .for)
    (clean : forStatement expression body ts = .done tree rest) :
    ∃ us dangling, ts = us ++ rest ∧
      (Clause.statement context dangling tree).Derives (keyword.token :: us) ∧
      (dangling = true → isNext .else rest = false) := by
  simp only [forStatement, bind_eq_done_iff, require_eq_done_iff, pure_apply,
    Outcome.done_eq_done_iff] at clean
  obtain ⟨_, _, ⟨opening, rfl, rfl⟩, initializer, _, foundInitializer, condition, _, foundCondition,
    _, _, ⟨semicolon, rfl, rfl⟩, increment, _, foundIncrement, _, _, ⟨closing, rfl, rfl⟩,
    bodyTree, _, foundBody, rfl, rfl⟩ := clean
  obtain ⟨us, rfl, initializerDerives⟩ := (forInitializer_sound sound).split foundInitializer
  obtain ⟨vs, rfl, conditionDerives⟩ := optional_sound sound foundCondition
  obtain ⟨ws, rfl, incrementDerives⟩ := optional_sound sound foundIncrement
  obtain ⟨xs, dangling, rfl, bodyDerives, follows⟩ := bodySound _ _ _ foundBody
  have derives := Clause.Derives.forStatement keyword opening semicolon closing
    initializerDerives conditionDerives incrementDerives bodyDerives
  refine ⟨opening.token :: us ++ vs ++ semicolon.token :: ws ++ closing.token :: xs, dangling,
    by simp, ?_, follows⟩
  cases increment <;> exact derives

theorem statementRule_sound {nested : Position → Context → Parser Stmt}
    (sound : expression.Sound Expression)
    (nestedSound : ∀ position context, StatementSound position context (nested position context))
    (position : Position) (context : Context) :
    StatementSound position context (statementRule budget expression nested position context) := by
  intro ts tree rest clean
  have expressionCase : ∀ {ts}, expressionStatement expression ts = .done tree rest →
      ∃ us dangling, ts = us ++ rest ∧ (position.clause context dangling tree).Derives us ∧
        (dangling = true → isNext .else rest = false) := by
    intro ts found
    obtain ⟨us, rfl, derives⟩ := (expressionStatement_sound sound).split found
    exact ⟨us, false, rfl, (Clause.Derives.expressionStatement derives).at position, by simp⟩
  cases ts with
  | nil => exact expressionCase clean
  | cons t ts =>
    simp only [statementRule] at clean
    split at clean
    case h_1 kind =>
      obtain ⟨us, rfl, derives⟩ :=
        functionDeclaration_sound (nestedSound .declaration .body) ⟨t, kind⟩ clean
      exact ⟨t :: us, false, rfl, derives, by simp⟩
    case h_2 kind =>
      obtain ⟨us, rfl, derives⟩ := variableDeclaration_sound sound ⟨t, kind⟩ clean
      exact ⟨t :: us, false, rfl, .variableDeclaration derives, by simp⟩
    case h_3 kind =>
      obtain ⟨us, rfl, derives⟩ := breakStatement_sound ⟨t, kind⟩ clean
      exact ⟨t :: us, false, rfl, derives.at _, by simp⟩
    case h_4 kind =>
      obtain ⟨us, dangling, rfl, derives, follows⟩ :=
        forStatement_sound sound (nestedSound .branch context.loop) ⟨t, kind⟩ clean
      exact ⟨t :: us, dangling, rfl, derives.at _, follows⟩
    case h_5 kind =>
      obtain ⟨us, dangling, rfl, derives, follows⟩ :=
        ifStatement_sound sound (nestedSound .branch context) ⟨t, kind⟩ clean
      exact ⟨t :: us, dangling, rfl, derives.at _, follows⟩
    case h_6 kind =>
      obtain ⟨us, rfl, derives⟩ := printStatement_sound sound ⟨t, kind⟩ clean
      exact ⟨t :: us, false, rfl, derives.at _, by simp⟩
    case h_7 kind =>
      obtain ⟨us, rfl, derives⟩ := returnStatement_sound sound ⟨t, kind⟩ clean
      exact ⟨t :: us, false, rfl, derives.at _, by simp⟩
    case h_8 kind =>
      obtain ⟨us, dangling, rfl, derives, follows⟩ :=
        whileStatement_sound sound (nestedSound .branch context.loop) ⟨t, kind⟩ clean
      exact ⟨t :: us, dangling, rfl, derives.at _, follows⟩
    case h_9 kind =>
      obtain ⟨trees, found, rfl⟩ := map_eq_done_iff.mp clean
      obtain ⟨us, right, rfl, derives⟩ := block_sound (nestedSound .declaration context) found
      exact ⟨t :: us ++ [right.token], false, by simp,
        (Clause.Derives.blockStatement ⟨t, kind⟩ right derives).at _, by simp⟩
    case h_10 => exact expressionCase clean

/-- What `statement` finds cleanly is a statement or a declaration. -/
theorem statement_sound (budget : Nat) (position : Position) (context : Context) :
    StatementSound position context (statement budget position context) := by
  induction budget generalizing position context with
  | zero =>
    intro ts tree rest clean
    simp [statement, abort] at clean
  | succ budget ih => exact statementRule_sound (expression_sound (budget + 1)) ih position context

end Soundness

/-! ## First tokens -/

/-- A statement starts with a token that is no `else` and no closing brace. -/
theorem Clause.Derives.exists_statement_head {context : Context} {dangling : Bool} {tree : Stmt}
    {ts : List Token} (derives : (Clause.statement context dangling tree).Derives ts) :
    ∃ t us, ts = t :: us ∧ t.kind ≠ .else ∧ t.kind ≠ .rightBrace := by
  cases derives with
  | expressionStatement derives =>
    obtain ⟨semicolon, derives⟩ := derives
    obtain ⟨t, us, rfl, starts⟩ := derives.exists_head
    refine ⟨t, _, rfl, ?_, ?_⟩ <;> intro kind <;> simp [kind, startsExpression] at starts
  | printStatement keyword | breakStatement keyword | returnStatement keyword
  | blockStatement keyword | ifStatement keyword | ifElseStatement keyword
  | whileStatement keyword | forStatement keyword =>
    exact ⟨keyword.token, _, rfl, by simp [keyword.kind_eq], by simp [keyword.kind_eq]⟩

/-- A declaration starts with a token that is no `else` and no closing brace. -/
theorem Clause.Derives.exists_declaration_head {context : Context} {dangling : Bool} {tree : Stmt}
    {ts : List Token} (derives : (Clause.declaration context dangling tree).Derives ts) :
    ∃ t us, ts = t :: us ∧ t.kind ≠ .else ∧ t.kind ≠ .rightBrace := by
  cases derives with
  | functionDeclaration keyword =>
    exact ⟨keyword.token, _, rfl, by simp [keyword.kind_eq], by simp [keyword.kind_eq]⟩
  | variableDeclaration derives =>
    obtain ⟨keyword, _, _⟩ | ⟨keyword, _, _, _, _⟩ := derives <;>
      exact ⟨keyword.token, _, rfl, by simp [keyword.kind_eq], by simp [keyword.kind_eq]⟩
  | statement derives => exact derives.exists_statement_head

/-! ## Completeness -/

section Completeness

variable {budget : Nat} {context : Context} {rest : List Token}

theorem optional_complete {kind : Kind} {tree? : Option Expr} {ts : List Token}
    (derives : OptionalExpression tree? ts) (enough : ts.length ≤ budget) (word : Word kind)
    (ends : Level.ends kind = true) (other : startsExpression kind = false) :
    unlessNext kind (expression budget) (ts ++ word.token :: rest) =
      .done tree? (word.token :: rest) := by
  refine unlessNext_eq_done_iff.mpr ?_
  cases derives with
  | absent => exact .inl ⟨isNext_cons.mpr word.kind_eq, rfl, rfl⟩
  | @present tree ts derives =>
    have found := expression_complete derives enough (Level.stops_word word rest ends)
    exact .inr ⟨derives.isNext_eq_false other _, tree, found, rfl⟩

theorem variableDeclaration_complete {tree : Stmt} {ts : List Token}
    (derives : VariableDeclaration tree ts) (enough : ts.length ≤ budget) (rest : List Token) :
    ∃ (keyword : Word .var) (us : List Token), ts = keyword.token :: us ∧
      variableDeclaration (expression budget) (us ++ rest) = .done tree rest := by
  cases derives with
  | bare keyword name semicolon =>
    refine ⟨keyword, _, rfl, ?_⟩
    simp only [variableDeclaration, bind_eq_done_iff, require_eq_done_iff, ifNext_eq_done_iff,
      pure_apply, Outcome.done_eq_done_iff]
    refine ⟨_, _, ⟨name, rfl, rfl⟩, none, _, .inr ⟨?_, rfl, rfl⟩, _, _,
      ⟨semicolon, rfl, rfl⟩, rfl, rfl⟩
    simp [isNext, semicolon.kind_eq]
  | @initialized keyword name equal semicolon initializer ts derives =>
    refine ⟨keyword, name.token :: equal.token :: ts ++ [semicolon.token], rfl, ?_⟩
    simp only [List.length_append, List.length_cons] at enough
    have found : expression budget (ts ++ semicolon.token :: rest) =
        .done initializer (semicolon.token :: rest) :=
      expression_complete derives (by omega) (Level.stops_word semicolon rest rfl)
    simp only [variableDeclaration, bind_eq_done_iff, require_eq_done_iff, ifNext_eq_done_iff,
      pure_apply, Outcome.done_eq_done_iff, List.cons_append, List.append_assoc, List.nil_append]
    exact ⟨_, _, ⟨name, rfl, rfl⟩, some initializer, _, .inl ⟨equal, _, _, rfl, found, rfl⟩,
      _, _, ⟨semicolon, rfl, rfl⟩, rfl, rfl⟩

theorem expressionStatement_complete {tree : Stmt} {ts : List Token}
    (derives : ExpressionStatement tree ts) (enough : ts.length ≤ budget) :
    expressionStatement (expression budget) (ts ++ rest) = .done tree rest := by
  obtain @⟨semicolon, value, ts, derives⟩ := derives
  rw [List.length_append] at enough
  have found := expression_complete derives (Nat.le_of_add_right_le enough)
    (Level.stops_word semicolon rest rfl)
  simp only [expressionStatement, bind_eq_done_iff, require_eq_done_iff, pure_apply,
    Outcome.done_eq_done_iff, List.append_assoc]
  exact ⟨value, _, found, _, _, ⟨semicolon, rfl, rfl⟩, rfl, rfl⟩

theorem ExpressionStatement.exists_head {tree : Stmt} {ts : List Token}
    (derives : ExpressionStatement tree ts) :
    ∃ t us, ts = t :: us ∧ startsExpression t.kind = true := by
  obtain ⟨semicolon, derives⟩ := derives
  obtain ⟨t, us, rfl, starts⟩ := derives.exists_head
  exact ⟨t, _, rfl, starts⟩

theorem forInitializer_complete {tree? : Option Stmt} {ts : List Token}
    (derives : Initializer tree? ts) (enough : ts.length ≤ budget) :
    forInitializer (expression budget) (ts ++ rest) = .done tree? rest := by
  cases derives with
  | absent semicolon => simp [forInitializer, semicolon.kind_eq]
  | «variable» derives =>
    obtain ⟨keyword, us, rfl, found⟩ := variableDeclaration_complete derives enough rest
    simp only [List.cons_append, forInitializer, keyword.kind_eq]
    exact map_eq_done_iff.mpr ⟨_, found, rfl⟩
  | expression derives =>
    obtain ⟨t, us, rfl, starts⟩ := derives.exists_head
    have found : expressionStatement (expression budget) (t :: (us ++ rest)) = .done _ rest :=
      expressionStatement_complete derives enough
    simp only [List.cons_append, forInitializer]
    split
    case h_1 kind => simp [kind, startsExpression] at starts
    case h_2 kind => simp [kind, startsExpression] at starts
    case h_3 => exact map_eq_done_iff.mpr ⟨_, found, rfl⟩

theorem parameter_complete {count : Nat} {name : Lexeme} {ts : List Token}
    (derives : Parameter name ts) (less : count < 255) :
    parameter count (ts ++ rest) = .done name rest := by
  obtain ⟨word⟩ := derives
  simp only [parameter, bind_eq_done_iff, onlyIf_reportHere_eq_done_iff, require_eq_done_iff]
  exact ⟨(), _, ⟨decide_eq_false (Nat.not_le_of_lt less), rfl⟩, word, rfl, rfl⟩

theorem parameters_complete {params : List Lexeme} {ts : List Token}
    (listed : Listed Parameter params ts) (bound : params.length ≤ 255)
    (enough : ts.length ≤ budget) (closing : Word .rightParen) :
    separated parameter budget (ts ++ closing.token :: rest) =
      .done params (closing.token :: rest) := by
  have length := length_le_of_listed listed (by rintro _ _ ⟨word⟩; exact List.cons_ne_nil _ _)
  refine separated_of_listed (fun less derives _ => parameter_complete derives less) ?_ listed bound
    (isNext_cons.mpr closing.kind_eq) (by omega)
  rintro _ _ rest ⟨word⟩
  simp [isNext, word.kind_eq]

/-- A declaration that the parser finds before anything but an `else`, and that starts with neither
an `else` nor a closing brace. -/
def DeclarationFound (budget : Nat) (context : Context) (_count : Nat) (tree? : Option Stmt)
    (ts : List Token) : Prop :=
  (∃ t us, ts = t :: us ∧ t.kind ≠ .else ∧ t.kind ≠ .rightBrace) ∧
    ∃ tree, tree? = some tree ∧ ∀ rest, isNext .else rest = false →
      statement budget .declaration context (ts ++ rest) = .done tree rest

/-- A loop finds declarations if its step recovers from faults in them. -/
theorem declarations_complete {step? : Nat → List Token → Option (Outcome (Option Stmt))}
    (recovers : ∀ count t us, t.kind ≠ .rightBrace →
      step? count (t :: us) = some (recovering (statement budget .declaration context) (t :: us)))
    {trees? : List (Option Stmt)} {ts : List Token}
    (pieces : Pieces (DeclarationFound budget context) 0 trees? ts) {steps : Nat}
    (enough : ts.length ≤ steps) (noElse : isNext .else rest = false)
    (stop : ∀ count, step? count rest = none) :
    many step? steps 0 (ts ++ rest) = .done trees? rest := by
  have length : trees?.length ≤ ts.length := by
    refine pieces.length_le_length ?_
    rintro _ _ _ ⟨⟨t, us, rfl, -⟩, -⟩
    exact List.cons_ne_nil t us
  refine many_of_pieces (isNext .else · = false) ?_ ?_ pieces noElse stop
    (Nat.le_trans length enough)
  · rintro count tree? _ rest ⟨⟨t, us, rfl, -, notBrace⟩, tree, rfl, found⟩ noElse
    rw [List.cons_append, recovers count t _ notBrace]
    exact congrArg some (recovering_eq_done_iff.mpr ⟨tree, found rest noElse, rfl⟩)
  · rintro count tree? _ rest ⟨⟨t, us, rfl, notElse, -⟩, -⟩
    simpa [isNext] using notElse

theorem block_complete {trees : List Stmt} {ts : List Token}
    (pieces : Pieces (DeclarationFound budget context) 0 (trees.map some) ts)
    (enough : ts.length ≤ budget) (right : Word .rightBrace) :
    block budget (statement budget .declaration context) (ts ++ right.token :: rest) =
      .done trees rest := by
  have found : many (declaration? (statement budget .declaration context)) budget 0
      (ts ++ right.token :: rest) = .done (trees.map some) (right.token :: rest) := by
    refine declarations_complete ?_ pieces enough ?_ ?_
    · intro count t us notBrace
      simp [declaration?, isNext, notBrace]
    · simp [isNext, right.kind_eq]
    · intro count
      simp [declaration?, isNext, right.kind_eq]
  simp only [block, bind_eq_done_iff, require_eq_done_iff, pure_apply, Outcome.done_eq_done_iff]
  refine ⟨_, _, found, _, _, ⟨right, rfl, rfl⟩, ?_, rfl⟩
  simp [List.filterMap_map]

end Completeness

/-! ### One lemma for each rule -/

/-- The parser finds the statement before anything but an `else` behind a dangling one. -/
def FoundIn (position : Position) (context : Context) (dangling : Bool) (tree : Stmt)
    (ts : List Token) : Prop :=
  ∀ budget rest, ts.length ≤ budget + 1 → (dangling = true → isNext .else rest = false) →
    statement (budget + 1) position context (ts ++ rest) = .done tree rest

namespace FoundIn

variable {position : Position} {context : Context} {dangling : Bool} {ts us vs ws : List Token}

theorem complete {tree : Stmt} (found : FoundIn position context dangling tree ts)
    (nonempty : ts ≠ []) {budget : Nat} (enough : ts.length ≤ budget) {rest : List Token}
    (follows : dangling = true → isNext .else rest = false) :
    statement budget position context (ts ++ rest) = .done tree rest := by
  have positive := List.length_pos_iff.mpr nonempty
  obtain ⟨fewer, rfl⟩ : ∃ fewer, budget = fewer + 1 := ⟨budget - 1, by omega⟩
  exact found fewer rest enough follows

theorem expressionStatement {tree : Stmt} (derives : ExpressionStatement tree ts) :
    FoundIn position context false tree ts := by
  intro budget rest enough _
  obtain ⟨t, us, rfl, starts⟩ := derives.exists_head
  have found : Grammar.expressionStatement (expression (budget + 1)) (t :: (us ++ rest)) =
      .done tree rest :=
    expressionStatement_complete derives enough
  simp only [List.cons_append, statement, statementRule]
  split
  case h_10 => exact found
  all_goals next kind => simp [kind, startsExpression] at starts

theorem variableDeclaration {tree : Stmt} (derives : VariableDeclaration tree ts) :
    FoundIn .declaration context false tree ts := by
  intro budget rest enough _
  obtain ⟨keyword, us, rfl, found⟩ := variableDeclaration_complete derives enough rest
  simpa only [List.cons_append, statement, statementRule, keyword.kind_eq] using found

theorem functionDeclaration (keyword : Word .fun) (name : Word .identifier)
    (opening : Word .leftParen) (closing : Word .rightParen) (left : Word .leftBrace)
    (right : Word .rightBrace) {params : List Lexeme} {body : List Stmt}
    (listed : Listed Parameter params ts) (bound : params.length ≤ 255)
    (pieces : ∀ budget, us.length ≤ budget →
      Pieces (DeclarationFound budget ⟨false, true⟩) 0 (body.map some) us) :
    FoundIn .declaration context false (.function name.lexeme params body)
      (keyword.token :: name.token :: opening.token :: ts ++ closing.token :: left.token :: us ++
        [right.token]) := by
  intro budget rest enough _
  simp only [List.length_append, List.length_cons] at enough
  have foundParams : separated parameter budget
      (ts ++ closing.token :: left.token :: (us ++ right.token :: rest)) =
      .done params (closing.token :: left.token :: (us ++ right.token :: rest)) :=
    parameters_complete listed bound (by omega) closing
  have foundBody : block budget (statement budget .declaration .body) (us ++ right.token :: rest) =
      .done body rest :=
    block_complete (pieces budget (by omega)) (by omega) right
  simp only [List.cons_append, List.append_assoc, List.nil_append, statement, statementRule,
    keyword.kind_eq, Grammar.functionDeclaration, bind_eq_done_iff, require_eq_done_iff, pure_apply,
    Outcome.done_eq_done_iff]
  exact ⟨_, _, ⟨name, rfl, rfl⟩, _, _, ⟨opening, rfl, rfl⟩, params, _, foundParams,
    _, _, ⟨closing, rfl, rfl⟩, _, _, ⟨left, rfl, rfl⟩, body, _, foundBody, rfl, rfl⟩

theorem printStatement (keyword : Word .print) (semicolon : Word .semicolon) {tree : Expr}
    (derives : Expression tree ts) :
    FoundIn position context false (.print tree) (keyword.token :: ts ++ [semicolon.token]) := by
  intro budget rest enough _
  simp only [List.length_append, List.length_cons] at enough
  have found : expression (budget + 1) (ts ++ semicolon.token :: rest) =
      .done tree (semicolon.token :: rest) :=
    expression_complete derives (by omega) (Level.stops_word semicolon rest rfl)
  cases position <;>
    simp only [List.cons_append, List.append_assoc, List.nil_append, statement, statementRule,
      keyword.kind_eq, Grammar.printStatement, bind_eq_done_iff, require_eq_done_iff, pure_apply,
      Outcome.done_eq_done_iff] <;>
    exact ⟨tree, _, found, _, _, ⟨semicolon, rfl, rfl⟩, rfl, rfl⟩

theorem breakStatement (keyword : Word .break) (semicolon : Word .semicolon)
    (inLoop : context.inLoop = true) :
    FoundIn position context false (.break keyword.lexeme) [keyword.token, semicolon.token] := by
  intro budget rest _ _
  cases position <;>
    simp only [List.cons_append, List.nil_append, statement, statementRule, keyword.kind_eq,
      Grammar.breakStatement, bind_eq_done_iff, onlyIf_reportAt_eq_done_iff, require_eq_done_iff,
      pure_apply, Outcome.done_eq_done_iff, Bool.not_eq_false'] <;>
    exact ⟨(), _, ⟨inLoop, rfl⟩, _, _, ⟨semicolon, rfl, rfl⟩, rfl, rfl⟩

theorem returnStatement (keyword : Word .return) (semicolon : Word .semicolon)
    (inFunction : context.inFunction = true) {value : Option Expr}
    (derives : OptionalExpression value ts) :
    FoundIn position context false (.return keyword.lexeme value)
      (keyword.token :: ts ++ [semicolon.token]) := by
  intro budget rest enough _
  simp only [List.length_append, List.length_cons] at enough
  have found : unlessNext .semicolon (expression (budget + 1)) (ts ++ semicolon.token :: rest) =
      .done value (semicolon.token :: rest) :=
    optional_complete derives (by omega) semicolon rfl rfl
  cases position <;>
    simp only [List.cons_append, List.append_assoc, List.nil_append, statement, statementRule,
      keyword.kind_eq, Grammar.returnStatement, bind_eq_done_iff, onlyIf_reportAt_eq_done_iff,
      require_eq_done_iff, pure_apply, Outcome.done_eq_done_iff, Bool.not_eq_false'] <;>
    exact ⟨(), _, ⟨inFunction, rfl⟩, value, _, found, _, _, ⟨semicolon, rfl, rfl⟩, rfl, rfl⟩

theorem blockStatement (left : Word .leftBrace) (right : Word .rightBrace) {trees : List Stmt}
    (pieces : ∀ budget, ts.length ≤ budget →
      Pieces (DeclarationFound budget context) 0 (trees.map some) ts) :
    FoundIn position context false (.block trees) (left.token :: ts ++ [right.token]) := by
  intro budget rest enough _
  simp only [List.length_append, List.length_cons] at enough
  have found : block budget (statement budget .declaration context) (ts ++ right.token :: rest) =
      .done trees rest :=
    block_complete (pieces budget (by omega)) (by omega) right
  cases position <;>
    simp only [List.cons_append, List.append_assoc, List.nil_append, statement, statementRule,
      left.kind_eq, map_eq_done_iff] <;>
    exact ⟨trees, found, rfl⟩

theorem ifStatement (keyword : Word .if) (opening : Word .leftParen) (closing : Word .rightParen)
    {condition : Expr} {thenBranch : Stmt} (derives : Expression condition ts)
    (found : FoundIn .branch context dangling thenBranch us) (nonempty : us ≠ []) :
    FoundIn position context true (.if condition thenBranch none)
      (keyword.token :: opening.token :: ts ++ closing.token :: us) := by
  intro budget rest enough follows
  simp only [List.length_append, List.length_cons] at enough
  have foundCondition : expression (budget + 1) (ts ++ closing.token :: (us ++ rest)) =
      .done condition (closing.token :: (us ++ rest)) :=
    expression_complete derives (by omega) (Level.stops_word closing _ rfl)
  have foundThen : statement budget .branch context (us ++ rest) = .done thenBranch rest :=
    found.complete nonempty (by omega) fun _ => follows rfl
  cases position <;>
    simp only [List.cons_append, List.append_assoc, statement, statementRule, keyword.kind_eq,
      Grammar.ifStatement, bind_eq_done_iff, require_eq_done_iff, ifNext_eq_done_iff, pure_apply,
      Outcome.done_eq_done_iff] <;>
    exact ⟨_, _, ⟨opening, rfl, rfl⟩, condition, _, foundCondition, _, _, ⟨closing, rfl, rfl⟩,
      thenBranch, _, foundThen, none, _, .inr ⟨follows rfl, rfl, rfl⟩, rfl, rfl⟩

theorem ifElseStatement (keyword : Word .if) (opening : Word .leftParen)
    (closing : Word .rightParen) (otherwise : Word .else) {condition : Expr}
    {thenBranch elseBranch : Stmt} (derives : Expression condition ts)
    (thenFound : FoundIn .branch context false thenBranch us) (thenNonempty : us ≠ [])
    (elseFound : FoundIn .branch context dangling elseBranch vs) (elseNonempty : vs ≠ []) :
    FoundIn position context dangling (.if condition thenBranch (some elseBranch))
      (keyword.token :: opening.token :: ts ++ closing.token :: us ++ otherwise.token :: vs) := by
  intro budget rest enough follows
  simp only [List.length_append, List.length_cons] at enough
  have foundCondition : expression (budget + 1)
      (ts ++ closing.token :: (us ++ otherwise.token :: (vs ++ rest))) =
      .done condition (closing.token :: (us ++ otherwise.token :: (vs ++ rest))) :=
    expression_complete derives (by omega) (Level.stops_word closing _ rfl)
  have foundThen : statement budget .branch context (us ++ otherwise.token :: (vs ++ rest)) =
      .done thenBranch (otherwise.token :: (vs ++ rest)) :=
    thenFound.complete thenNonempty (by omega) (by simp)
  have foundElse : statement budget .branch context (vs ++ rest) = .done elseBranch rest :=
    elseFound.complete elseNonempty (by omega) follows
  cases position <;>
    simp only [List.cons_append, List.append_assoc, statement, statementRule, keyword.kind_eq,
      Grammar.ifStatement, bind_eq_done_iff, require_eq_done_iff, ifNext_eq_done_iff, pure_apply,
      Outcome.done_eq_done_iff] <;>
    exact ⟨_, _, ⟨opening, rfl, rfl⟩, condition, _, foundCondition, _, _, ⟨closing, rfl, rfl⟩,
      thenBranch, _, foundThen, some elseBranch, _,
      .inl ⟨otherwise, _, elseBranch, rfl, foundElse, rfl⟩, rfl, rfl⟩

theorem whileStatement (keyword : Word .while) (opening : Word .leftParen)
    (closing : Word .rightParen) {condition : Expr} {body : Stmt}
    (derives : Expression condition ts)
    (found : FoundIn .branch { context with inLoop := true } dangling body us)
    (nonempty : us ≠ []) :
    FoundIn position context dangling (.while condition body)
      (keyword.token :: opening.token :: ts ++ closing.token :: us) := by
  intro budget rest enough follows
  simp only [List.length_append, List.length_cons] at enough
  have foundCondition : expression (budget + 1) (ts ++ closing.token :: (us ++ rest)) =
      .done condition (closing.token :: (us ++ rest)) :=
    expression_complete derives (by omega) (Level.stops_word closing _ rfl)
  have foundBody : statement budget .branch context.loop (us ++ rest) = .done body rest :=
    found.complete nonempty (by omega) follows
  cases position <;>
    simp only [List.cons_append, List.append_assoc, statement, statementRule, keyword.kind_eq,
      Grammar.whileStatement, bind_eq_done_iff, require_eq_done_iff, pure_apply,
      Outcome.done_eq_done_iff] <;>
    exact ⟨_, _, ⟨opening, rfl, rfl⟩, condition, _, foundCondition, _, _, ⟨closing, rfl, rfl⟩,
      body, _, foundBody, rfl, rfl⟩

theorem forStatement (keyword : Word .for) (opening : Word .leftParen)
    (semicolon : Word .semicolon) (closing : Word .rightParen) {initializer : Option Stmt}
    {condition increment : Option Expr} {body : Stmt} (initialized : Initializer initializer ts)
    (conditioned : OptionalExpression condition us)
    (incremented : OptionalExpression increment vs)
    (found : FoundIn .branch { context with inLoop := true } dangling body ws)
    (nonempty : ws ≠ []) :
    FoundIn position context dangling (.forLoop initializer condition increment body)
      (keyword.token :: opening.token :: ts ++ us ++ semicolon.token :: vs ++
        closing.token :: ws) := by
  intro budget rest enough follows
  simp only [List.length_append, List.length_cons] at enough
  have foundInitializer : forInitializer (expression (budget + 1))
      (ts ++ (us ++ semicolon.token :: (vs ++ closing.token :: (ws ++ rest)))) =
      .done initializer (us ++ semicolon.token :: (vs ++ closing.token :: (ws ++ rest))) :=
    forInitializer_complete initialized (by omega)
  have foundCondition : unlessNext .semicolon (expression (budget + 1))
      (us ++ semicolon.token :: (vs ++ closing.token :: (ws ++ rest))) =
      .done condition (semicolon.token :: (vs ++ closing.token :: (ws ++ rest))) :=
    optional_complete conditioned (by omega) semicolon rfl rfl
  have foundIncrement : unlessNext .rightParen (expression (budget + 1))
      (vs ++ closing.token :: (ws ++ rest)) = .done increment (closing.token :: (ws ++ rest)) :=
    optional_complete incremented (by omega) closing rfl rfl
  have foundBody : statement budget .branch context.loop (ws ++ rest) = .done body rest :=
    found.complete nonempty (by omega) follows
  cases position <;>
    simp only [List.cons_append, List.append_assoc, statement, statementRule, keyword.kind_eq,
      Grammar.forStatement, bind_eq_done_iff, require_eq_done_iff, pure_apply,
      Outcome.done_eq_done_iff] <;>
    exact ⟨_, _, ⟨opening, rfl, rfl⟩, initializer, _, foundInitializer, condition, _,
      foundCondition,
      _, _, ⟨semicolon, rfl, rfl⟩, increment, _, foundIncrement, _, _, ⟨closing, rfl, rfl⟩,
      body, _, foundBody, rfl, rfl⟩

end FoundIn

/-- What the parsers find of a clause. -/
def Clause.Found : Clause → List Token → Prop
  | .declaration context dangling tree, ts => FoundIn .declaration context dangling tree ts
  | .statement context dangling tree, ts =>
    ∀ position, FoundIn position context dangling tree ts
  | .declarations context trees, ts => ∀ budget, ts.length ≤ budget → ∀ count,
    Pieces (DeclarationFound budget context) count (trees.map some) ts

/-- The parsers find every clause that is derived. -/
theorem Clause.Derives.found {clause : Clause} {ts : List Token} (derives : clause.Derives ts) :
    clause.Found ts := by
  have nonempty : ∀ {context dangling tree us},
      (Clause.statement context dangling tree).Derives us → us ≠ [] := by
    rintro context dangling tree us derives rfl
    obtain ⟨_, _, same, -⟩ := derives.exists_statement_head
    contradiction
  induction derives with
  | nil => exact fun _ _ _ => .nil
  | @cons context dangling tree trees ts us derives _ ih ihRest =>
    intro budget enough count
    rw [List.length_append] at enough
    obtain ⟨t, vs, rfl, notElse, notBrace⟩ := derives.exists_declaration_head
    refine .cons ⟨⟨t, vs, rfl, notElse, notBrace⟩, tree, rfl, ?_⟩ (ihRest budget (by omega) _)
    intro rest noElse
    exact ih.complete (List.cons_ne_nil t vs) (by omega) fun _ => noElse
  | functionDeclaration keyword name opening closing left right listed bound _ ih =>
    exact .functionDeclaration keyword name opening closing left right listed bound
      fun budget enough => ih budget enough 0
  | variableDeclaration derives => exact .variableDeclaration derives
  | statement _ ih => exact ih .declaration
  | expressionStatement derives => exact fun _ => .expressionStatement derives
  | printStatement keyword semicolon derives =>
    exact fun _ => .printStatement keyword semicolon derives
  | breakStatement keyword semicolon inLoop =>
    exact fun _ => .breakStatement keyword semicolon inLoop
  | returnStatement keyword semicolon inFunction derives =>
    exact fun _ => .returnStatement keyword semicolon inFunction derives
  | blockStatement left right _ ih =>
    exact fun _ => .blockStatement left right fun budget enough => ih budget enough 0
  | ifStatement keyword opening closing derives thenDerives ih =>
    exact fun _ => .ifStatement keyword opening closing derives (ih .branch) (nonempty thenDerives)
  | ifElseStatement keyword opening closing otherwise derives thenDerives elseDerives
    ihThen ihElse =>
    exact fun _ => .ifElseStatement keyword opening closing otherwise derives (ihThen .branch)
      (nonempty thenDerives) (ihElse .branch) (nonempty elseDerives)
  | whileStatement keyword opening closing derives bodyDerives ih =>
    exact fun _ => .whileStatement keyword opening closing derives (ih .branch)
      (nonempty bodyDerives)
  | @forStatement keyword opening semicolon closing _ _ _ _ increment _ _ _ _ _ initialized
      conditioned incremented bodyDerives ih =>
    intro position
    have found : FoundIn position _ _ _ _ := .forStatement keyword opening semicolon closing
      initialized conditioned incremented (ih .branch) (nonempty bodyDerives)
    cases increment <;> exact found

end Lox.Grammar
