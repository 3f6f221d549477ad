import Lox.Grammar.Statement

/-!
# The grammar of programs

Which tokens are an expression, a statement or a program, and which tree they stand for, without
saying how to find out.

* `Phrase.Derives` is the grammar of expressions, with its ten levels.  The left operand of an
  operator is of the level of the operator and the right one of the next tighter level, so that
  operators group to the left; an assignment groups to the right.
* `Clause.Derives` is the grammar of declarations and statements.  A clause knows what it stands in,
  which decides where `break` and `return` may stand, and whether it is *dangling*: whether it ends
  in an `if` that could still take an `else`.  What stands between an `if` and its `else` is never
  dangling, so that an `else` belongs to the nearest `if` before it that has none yet.
* `Program` is the grammar of programs.
-/

namespace Lox.Grammar

/-- A token of the given kind. -/
structure Word (kind : Kind) where
  token : Token
  kind_eq : token.kind = kind

/-- The text of a word, with its line. -/
def Word.lexeme {kind : Kind} (word : Word kind) : Lexeme := word.token.toLexeme

/-- Items separated by commas. -/
inductive Listed {α : Type} (Item : α → List Token → Prop) : List α → List Token → Prop where
  | none : Listed Item [] []
  | one {value : α} {ts : List Token} : Item value ts → Listed Item [value] ts
  | more (comma : Word .comma) {value next : α} {values : List α} {ts us : List Token} :
    Item value ts → Listed Item (next :: values) us →
    Listed Item (value :: next :: values) (ts ++ comma.token :: us)

/-! ## Expressions -/

/-- The levels of expressions, from the one that binds least tightly. -/
inductive Level where
  | assignment
  | or
  | and
  | equality
  | comparison
  | term
  | factor
  | unary
  | call
  | primary
deriving DecidableEq, Repr

namespace Level

/-- The next tighter level.  Nothing binds more tightly than what stands alone. -/
def next : Level → Level
  | .assignment => .or
  | .or => .and
  | .and => .equality
  | .equality => .comparison
  | .comparison => .term
  | .term => .factor
  | .factor => .unary
  | .unary => .call
  | .call => .primary
  | .primary => .primary

/-- The level of the operations with an operator. -/
def ofOperator : Operator → Level
  | .logical .or => .or
  | .logical .and => .and
  | .binary .equal | .binary .notEqual => .equality
  | .binary .greater | .binary .greaterEqual | .binary .less | .binary .lessEqual => .comparison
  | .binary .add | .binary .subtract => .term
  | .binary .multiply | .binary .divide => .factor

end Level

/-- What a part of an expression can be, with its tree. -/
inductive Phrase where
  /-- An expression of at least the tightness of a level. -/
  | expression (level : Level) (tree : Expr)
  /-- The arguments of a call, without its parentheses. -/
  | arguments (trees : List Expr)

/-- The tokens derive the phrase. -/
inductive Phrase.Derives : Phrase → List Token → Prop where
  | tighter {level : Level} {tree : Expr} {ts : List Token} :
    Derives (.expression level.next tree) ts → Derives (.expression level tree) ts
  | assign (name : Word .identifier) (equal : Word .equal) {value : Expr} {ts : List Token} :
    Derives (.expression .assignment value) ts →
    Derives (.expression .assignment (.assign name.lexeme value)) (name.token :: equal.token :: ts)
  | operation {op : Operator} (mark : Word op.kind) {left right : Expr} {ts us : List Token} :
    Derives (.expression (.ofOperator op) left) ts →
    Derives (.expression (Level.ofOperator op).next right) us →
    Derives (.expression (.ofOperator op) (.operation left op mark.lexeme right))
      (ts ++ mark.token :: us)
  | unary {op : UnaryOp} (mark : Word op.kind) {operand : Expr} {ts : List Token} :
    Derives (.expression .unary operand) ts →
    Derives (.expression .unary (.unary op mark.lexeme operand)) (mark.token :: ts)
  | call (opening : Word .leftParen) (closing : Word .rightParen) {callee : Expr}
      {arguments : List Expr} {ts us : List Token} :
    Derives (.expression .call callee) ts → Derives (.arguments arguments) us →
    arguments.length ≤ 255 →
    Derives (.expression .call (.call callee closing.lexeme arguments))
      (ts ++ opening.token :: us ++ [closing.token])
  | grouping (opening : Word .leftParen) (closing : Word .rightParen) {inner : Expr}
      {ts : List Token} :
    Derives (.expression .assignment inner) ts →
    Derives (.expression .primary (.grouping inner)) (opening.token :: ts ++ [closing.token])
  | name (name : Word .identifier) :
    Derives (.expression .primary (.variable name.lexeme)) [name.token]
  | nil (word : Word .nil) : Derives (.expression .primary (.literal .nil)) [word.token]
  | true (word : Word .true) :
    Derives (.expression .primary (.literal (.bool true))) [word.token]
  | false (word : Word .false) :
    Derives (.expression .primary (.literal (.bool false))) [word.token]
  | number {value : Float} (word : Word (.number value)) :
    Derives (.expression .primary (.literal (.number value))) [word.token]
  | string {value : String} (word : Word (.string value)) :
    Derives (.expression .primary (.literal (.string value))) [word.token]
  | noArguments : Derives (.arguments []) []
  | oneArgument {tree : Expr} {ts : List Token} :
    Derives (.expression .assignment tree) ts → Derives (.arguments [tree]) ts
  | moreArguments (comma : Word .comma) {tree next : Expr} {trees : List Expr}
      {ts us : List Token} :
    Derives (.expression .assignment tree) ts → Derives (.arguments (next :: trees)) us →
    Derives (.arguments (tree :: next :: trees)) (ts ++ comma.token :: us)

/-- The tokens are an expression. -/
def Expression (tree : Expr) (ts : List Token) : Prop :=
  (Phrase.expression .assignment tree).Derives ts

/-- The tokens are an expression, or there are none. -/
inductive OptionalExpression : Option Expr → List Token → Prop where
  | absent : OptionalExpression none []
  | present {tree : Expr} {ts : List Token} :
    Expression tree ts → OptionalExpression (some tree) ts

/-! ## Statements -/

/-- The token is the name of a parameter. -/
inductive Parameter : Lexeme → List Token → Prop where
  | mk (name : Word .identifier) : Parameter name.lexeme [name.token]

/-- The tokens are a variable declaration. -/
inductive VariableDeclaration : Stmt → List Token → Prop where
  | bare (keyword : Word .var) (name : Word .identifier) (semicolon : Word .semicolon) :
    VariableDeclaration (.var name.lexeme none) [keyword.token, name.token, semicolon.token]
  | initialized (keyword : Word .var) (name : Word .identifier) (equal : Word .equal)
      (semicolon : Word .semicolon) {initializer : Expr} {ts : List Token} :
    Expression initializer ts →
    VariableDeclaration (.var name.lexeme (some initializer))
      (keyword.token :: name.token :: equal.token :: ts ++ [semicolon.token])

/-- The tokens are an expression as a statement. -/
inductive ExpressionStatement : Stmt → List Token → Prop where
  | mk (semicolon : Word .semicolon) {tree : Expr} {ts : List Token} :
    Expression tree ts → ExpressionStatement (.expression tree) (ts ++ [semicolon.token])

/-- The tokens are the first clause of a `for` statement, with its semicolon. -/
inductive Initializer : Option Stmt → List Token → Prop where
  | absent (semicolon : Word .semicolon) : Initializer none [semicolon.token]
  | variable {tree : Stmt} {ts : List Token} :
    VariableDeclaration tree ts → Initializer (some tree) ts
  | expression {tree : Stmt} {ts : List Token} :
    ExpressionStatement tree ts → Initializer (some tree) ts

/-- What a part of a program can be, with what it stands in, whether it is dangling, and its
tree. -/
inductive Clause where
  /-- What can stand in a block or a program. -/
  | declaration (context : Context) (dangling : Bool) (tree : Stmt)
  /-- What can be the branch of a condition or the body of a loop. -/
  | statement (context : Context) (dangling : Bool) (tree : Stmt)
  /-- Any number of declarations. -/
  | declarations (context : Context) (trees : List Stmt)

/-- The tokens derive the clause. -/
inductive Clause.Derives : Clause → List Token → Prop where
  | nil {context : Context} : Derives (.declarations context []) []
  | cons {context : Context} {dangling : Bool} {tree : Stmt} {trees : List Stmt}
      {ts us : List Token} :
    Derives (.declaration context dangling tree) ts → Derives (.declarations context trees) us →
    Derives (.declarations context (tree :: trees)) (ts ++ us)
  | functionDeclaration (keyword : Word .fun) (name : Word .identifier) (opening : Word .leftParen)
      (closing : Word .rightParen) (left : Word .leftBrace) (right : Word .rightBrace)
      {context : Context} {params : List Lexeme} {body : List Stmt} {ts us : List Token} :
    Listed Parameter params ts → params.length ≤ 255 →
    Derives (.declarations ⟨false, true⟩ body) us →
    Derives (.declaration context false (.function name.lexeme params body))
      (keyword.token :: name.token :: opening.token :: ts ++ closing.token :: left.token :: us ++
        [right.token])
  | variableDeclaration {context : Context} {tree : Stmt} {ts : List Token} :
    VariableDeclaration tree ts → Derives (.declaration context false tree) ts
  | statement {context : Context} {dangling : Bool} {tree : Stmt} {ts : List Token} :
    Derives (.statement context dangling tree) ts →
    Derives (.declaration context dangling tree) ts
  | expressionStatement {context : Context} {tree : Stmt} {ts : List Token} :
    ExpressionStatement tree ts → Derives (.statement context false tree) ts
  | printStatement (keyword : Word .print) (semicolon : Word .semicolon)
    {context : Context} {tree : Expr}
      {ts : List Token} :
    Expression tree ts →
    Derives (.statement context false (.print tree)) (keyword.token :: ts ++ [semicolon.token])
  | breakStatement (keyword : Word .break) (semicolon : Word .semicolon) {context : Context} :
    context.inLoop = true →
    Derives (.statement context false (.break keyword.lexeme)) [keyword.token, semicolon.token]
  | returnStatement (keyword : Word .return) (semicolon : Word .semicolon) {context : Context}
      {value : Option Expr} {ts : List Token} :
    context.inFunction = true → OptionalExpression value ts →
    Derives (.statement context false (.return keyword.lexeme value))
      (keyword.token :: ts ++ [semicolon.token])
  | blockStatement (left : Word .leftBrace) (right : Word .rightBrace) {context : Context}
      {trees : List Stmt} {ts : List Token} :
    Derives (.declarations context trees) ts →
    Derives (.statement context false (.block trees)) (left.token :: ts ++ [right.token])
  | ifStatement (keyword : Word .if) (opening : Word .leftParen) (closing : Word .rightParen)
      {context : Context} {dangling : Bool} {condition : Expr} {thenBranch : Stmt}
      {ts us : List Token} :
    Expression condition ts → Derives (.statement context dangling thenBranch) us →
    Derives (.statement context true (.if condition thenBranch none))
      (keyword.token :: opening.token :: ts ++ closing.token :: us)
  | ifElseStatement (keyword : Word .if) (opening : Word .leftParen) (closing : Word .rightParen)
      (otherwise : Word .else) {context : Context} {dangling : Bool} {condition : Expr}
      {thenBranch elseBranch : Stmt} {ts us vs : List Token} :
    Expression condition ts → Derives (.statement context false thenBranch) us →
    Derives (.statement context dangling elseBranch) vs →
    Derives (.statement context dangling (.if condition thenBranch (some elseBranch)))
      (keyword.token :: opening.token :: ts ++ closing.token :: us ++ otherwise.token :: vs)
  | whileStatement (keyword : Word .while) (opening : Word .leftParen) (closing : Word .rightParen)
      {context : Context} {dangling : Bool} {condition : Expr} {body : Stmt}
      {ts us : List Token} :
    Expression condition ts →
    Derives (.statement { context with inLoop := true } dangling body) us →
    Derives (.statement context dangling (.while condition body))
      (keyword.token :: opening.token :: ts ++ closing.token :: us)
  | forStatement (keyword : Word .for) (opening : Word .leftParen) (semicolon : Word .semicolon)
      (closing : Word .rightParen) {context : Context} {dangling : Bool}
      {initializer : Option Stmt} {condition increment : Option Expr} {body : Stmt}
      {ts us vs ws : List Token} :
    Initializer initializer ts → OptionalExpression condition us →
    OptionalExpression increment vs →
    Derives (.statement { context with inLoop := true } dangling body) ws →
    Derives
      (.statement context dangling
        (.block (initializer.toList ++
          [.while (condition.getD (.literal (.bool true)))
            (.block (body :: increment.toList.map Stmt.expression))])))
      (keyword.token :: opening.token :: ts ++ us ++ semicolon.token :: vs ++ closing.token :: ws)

/-- The tokens are a program. -/
def Program (trees : List Stmt) (ts : List Token) : Prop :=
  (Clause.declarations ⟨false, false⟩ trees).Derives ts

end Lox.Grammar
