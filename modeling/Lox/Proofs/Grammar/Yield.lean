import Lox.Grammar.Program
import Lox.Proofs.Grammar.Expression
import Mathlib.Data.List.Forall2
import Mathlib.Data.List.TakeWhile

/-!
# Reading an expression and writing it down

The *yield* of an expression is what its tree says about its tokens, from the first to the last.  Of
a name, an operator and the closing parenthesis of a call the tree keeps the token; of the other
tokens it determines the kind.  A tree is *normal* if each operand binds as tightly as its place
requires, so that no parentheses are missing in the yield.

* `Phrase.Derives.normal_yield`, `Expr.Normal.derives`: the tokens that derive an expression are
  those of the yield of a normal tree.
* `parseExpression_eq_ok_iff_normal_yield`: reading tokens gives exactly the normal tree whose yield
  they are, and what is written down from a normal tree is read as that tree again.
-/

namespace Lox

/-! ## Yields -/

/-- What a tree says about one of its tokens: all of it, or its kind. -/
inductive Leaf where
  | token (token : Token)
  | kind (kind : Kind)
deriving DecidableEq, Repr

namespace Leaf

/-- The token is as the leaf says. -/
def Fits : Leaf → Token → Prop
  | .token own, t => t = own
  | .kind own, t => t.kind = own

/-- A token as the leaf says, without a text if the leaf says only the kind. -/
def written : Leaf → Token
  | .token own => own
  | .kind own => ⟨⟨"", 1⟩, own⟩

theorem fits_written (leaf : Leaf) : leaf.Fits leaf.written := by
  cases leaf <;> rfl

end Leaf

/-- The kind of the token that stands for a literal. -/
def Literal.kind : Literal → Kind
  | .nil => .nil
  | .bool true => .true
  | .bool false => .false
  | .number value => .number value
  | .string value => .string value

namespace Expr

mutual

/-- What a tree says about its tokens, in their order. -/
def yield : Expr → List Leaf
  | .assign name value => .token ⟨name, .identifier⟩ :: .kind .equal :: value.yield
  | .operation left op mark right => left.yield ++ .token ⟨mark, op.kind⟩ :: right.yield
  | .unary op mark operand => .token ⟨mark, op.kind⟩ :: operand.yield
  | .call callee paren arguments =>
    callee.yield ++ .kind .leftParen :: (yieldAll arguments ++ [.token ⟨paren, .rightParen⟩])
  | .grouping inner => .kind .leftParen :: (inner.yield ++ [.kind .rightParen])
  | .literal value => [.kind value.kind]
  | .variable name => [.token ⟨name, .identifier⟩]

/-- What trees say about their tokens, with a comma between each two of them. -/
def yieldAll : List Expr → List Leaf
  | [] => []
  | [tree] => tree.yield
  | tree :: next :: trees => tree.yield ++ .kind .comma :: yieldAll (next :: trees)

end

/-- The tokens of a tree, without a text where the tree keeps none. -/
def tokens (tree : Expr) : List Token := tree.yield.map Leaf.written

end Expr

/-- The tokens are as the leaves say, one for each. -/
abbrev Spells (leaves : List Leaf) (ts : List Token) : Prop := List.Forall₂ Leaf.Fits leaves ts

theorem spells_append_iff {first second : List Leaf} {ts : List Token} :
    Spells (first ++ second) ts ↔ ∃ us vs, ts = us ++ vs ∧ Spells first us ∧ Spells second vs := by
  induction first generalizing ts with
  | nil =>
    constructor
    · intro spells
      exact ⟨[], ts, rfl, .nil, spells⟩
    · rintro ⟨us, vs, rfl, spellsFirst, spellsSecond⟩
      rw [List.forall₂_nil_left_iff.mp spellsFirst]
      exact spellsSecond
  | cons leaf first ih =>
    rw [List.cons_append]
    constructor
    · intro spells
      obtain ⟨t, rest, fits, spellsRest, rfl⟩ := List.forall₂_cons_left_iff.mp spells
      obtain ⟨us, vs, rfl, spellsFirst, spellsSecond⟩ := ih.mp spellsRest
      exact ⟨t :: us, vs, rfl, .cons fits spellsFirst, spellsSecond⟩
    · rintro ⟨us, vs, rfl, spellsFirst, spellsSecond⟩
      obtain ⟨t, rest, fits, spellsRest, rfl⟩ := List.forall₂_cons_left_iff.mp spellsFirst
      exact .cons fits (ih.mpr ⟨rest, vs, rfl, spellsRest, spellsSecond⟩)

theorem spells_cons_iff {leaf : Leaf} {leaves : List Leaf} {ts : List Token} :
    Spells (leaf :: leaves) ts ↔ ∃ t us, ts = t :: us ∧ leaf.Fits t ∧ Spells leaves us := by
  rw [Spells, List.forall₂_cons_left_iff]
  constructor
  · rintro ⟨t, us, fits, spells, same⟩
    exact ⟨t, us, same, fits, spells⟩
  · rintro ⟨t, us, same, fits, spells⟩
    exact ⟨t, us, fits, spells, same⟩

theorem spells_singleton_iff {leaf : Leaf} {ts : List Token} :
    Spells [leaf] ts ↔ ∃ t, ts = [t] ∧ leaf.Fits t := by
  rw [spells_cons_iff]
  constructor
  · rintro ⟨t, us, rfl, fits, spells⟩
    rw [List.forall₂_nil_left_iff.mp spells]
    exact ⟨t, rfl, fits⟩
  · rintro ⟨t, rfl, fits⟩
    exact ⟨t, [], rfl, fits, .nil⟩

theorem spells_written (leaves : List Leaf) : Spells leaves (leaves.map Leaf.written) := by
  induction leaves with
  | nil => exact .nil
  | cons leaf leaves ih => exact .cons leaf.fits_written ih

/-! ## Normal trees -/

namespace Grammar.Level

/-- How tightly the expressions of a level bind. -/
def tightness : Level → Nat
  | .assignment => 0
  | .or => 1
  | .and => 2
  | .equality => 3
  | .comparison => 4
  | .term => 5
  | .factor => 6
  | .unary => 7
  | .call => 8
  | .primary => 9

theorem tightness_le (level : Level) : level.tightness ≤ Level.primary.tightness := by
  cases level <;> decide

theorem tightness_next {level : Level} (loose : level.tightness < Level.primary.tightness) :
    level.next.tightness = level.tightness + 1 := by
  cases level with
  | primary => exact absurd loose (Nat.lt_irrefl _)
  | _ => rfl

theorem tightness_le_next (level : Level) : level.tightness ≤ level.next.tightness := by
  cases level <;> decide

theorem tightness_ofOperator_lt (op : Operator) :
    (ofOperator op).tightness < Level.primary.tightness := by
  rcases op with op | op <;> cases op <;> decide

theorem eq_of_tightness_eq {level other : Level} (same : level.tightness = other.tightness) :
    level = other := by
  cases level <;> cases other <;> simp [tightness] at same ⊢

end Grammar.Level

open Grammar

namespace Expr

/-- The level of a tree by its root. -/
def level : Expr → Level
  | .assign _ _ => .assignment
  | .operation _ op _ _ => .ofOperator op
  | .unary _ _ _ => .unary
  | .call _ _ _ => .call
  | .grouping _ | .literal _ | .variable _ => .primary

/-- The tree binds at least as tightly as expressions of the level. -/
def AtLeast (level : Level) (tree : Expr) : Prop := level.tightness ≤ tree.level.tightness

/-- The tree binds more tightly than expressions of the level. -/
def Above (level : Level) (tree : Expr) : Prop := level.tightness < tree.level.tightness

/-- Every operand binds as tightly as its place requires, and no call has too many arguments. -/
inductive Normal : Expr → Prop
  | assign {name value} : Normal value → Normal (.assign name value)
  | operation {left op mark right} : Normal left → left.AtLeast (.ofOperator op) →
      Normal right → right.Above (.ofOperator op) → Normal (.operation left op mark right)
  | unary {op mark operand} : Normal operand → operand.AtLeast .unary →
    Normal (.unary op mark operand)
  | call {callee paren arguments} : Normal callee → callee.AtLeast .call →
    (∀ tree ∈ arguments, Normal tree) →
      arguments.length ≤ 255 → Normal (.call callee paren arguments)
  | grouping {inner} : Normal inner → Normal (.grouping inner)
  | literal {value} : Normal (.literal value)
  | variable {name} : Normal (.variable name)

theorem atLeast_assignment (tree : Expr) : tree.AtLeast .assignment := Nat.zero_le _

theorem above_of_atLeast_next {op : Operator} {tree : Expr}
    (tight : tree.AtLeast (Level.ofOperator op).next) : tree.Above (.ofOperator op) := by
  unfold AtLeast at tight
  rw [Level.tightness_next (Level.tightness_ofOperator_lt op)] at tight
  exact tight

theorem atLeast_next_of_above {op : Operator} {tree : Expr} (tight : tree.Above (.ofOperator op)) :
    tree.AtLeast (Level.ofOperator op).next := by
  unfold AtLeast
  rw [Level.tightness_next (Level.tightness_ofOperator_lt op)]
  exact tight

end Expr

/-! ## What is derived is the yield of a normal tree -/

theorem Grammar.Word.fits {kind : Kind} (word : Word kind) :
    (Leaf.token ⟨word.lexeme, kind⟩).Fits word.token := by
  obtain ⟨⟨lexeme, own⟩, same⟩ := word
  cases same
  rfl

/-- The phrase is normal, at least as tight as it has to be, and the tokens are its yield. -/
def Grammar.Phrase.NormalYield : Phrase → List Token → Prop
  | .expression level tree, ts => tree.Normal ∧ tree.AtLeast level ∧ Spells tree.yield ts
  | .arguments trees, ts => (∀ tree ∈ trees, tree.Normal) ∧ Spells (Expr.yieldAll trees) ts

/-- The tokens that derive a phrase are its yield, and its trees are normal. -/
theorem Grammar.Phrase.Derives.normal_yield {phrase : Phrase} {ts : List Token}
    (derives : phrase.Derives ts) : phrase.NormalYield ts := by
  induction derives with
  | @tighter level tree ts _ ih =>
    obtain ⟨normal, tight, spells⟩ := ih
    exact ⟨normal, Nat.le_trans level.tightness_le_next tight, spells⟩
  | assign name equal _ ih =>
    obtain ⟨normal, -, spells⟩ := ih
    exact ⟨.assign normal, Nat.le_refl _, .cons name.fits (.cons equal.kind_eq spells)⟩
  | operation mark _ _ ihLeft ihRight =>
    obtain ⟨normalLeft, tightLeft, spellsLeft⟩ := ihLeft
    obtain ⟨normalRight, tightRight, spellsRight⟩ := ihRight
    refine ⟨.operation normalLeft tightLeft normalRight (Expr.above_of_atLeast_next tightRight),
      Nat.le_refl _, ?_⟩
    exact spells_append_iff.mpr ⟨_, _, rfl, spellsLeft, .cons mark.fits spellsRight⟩
  | unary mark _ ih =>
    obtain ⟨normal, tight, spells⟩ := ih
    exact ⟨.unary normal tight, Nat.le_refl _, .cons mark.fits spells⟩
  | call opening closing _ _ bound ihCallee ihArguments =>
    obtain ⟨normal, tight, spells⟩ := ihCallee
    obtain ⟨normals, spellsAll⟩ := ihArguments
    refine ⟨.call normal tight normals bound, Nat.le_refl _, ?_⟩
    have spellsClosing : Spells [.token ⟨closing.lexeme, .rightParen⟩] [closing.token] :=
      spells_singleton_iff.mpr ⟨closing.token, rfl, closing.fits⟩
    rw [List.append_assoc]
    refine spells_append_iff.mpr ⟨_, _, rfl, spells, .cons opening.kind_eq ?_⟩
    exact spells_append_iff.mpr ⟨_, _, rfl, spellsAll, spellsClosing⟩
  | grouping opening closing _ ih =>
    obtain ⟨normal, -, spells⟩ := ih
    refine ⟨.grouping normal, Nat.le_refl _, .cons opening.kind_eq ?_⟩
    exact spells_append_iff.mpr ⟨_, _, rfl, spells, .cons closing.kind_eq .nil⟩
  | name word => exact ⟨.variable, Nat.le_refl _, .cons word.fits .nil⟩
  | nil word | true word | false word | number word | string word =>
    exact ⟨.literal, Nat.le_refl _, .cons word.kind_eq .nil⟩
  | noArguments => exact ⟨by simp, .nil⟩
  | oneArgument _ ih => exact ⟨List.forall_mem_singleton.mpr ih.1, ih.2.2⟩
  | moreArguments comma _ _ ih ihMore =>
    refine ⟨List.forall_mem_cons.mpr ⟨ih.1, ihMore.1⟩, ?_⟩
    exact spells_append_iff.mpr ⟨_, _, rfl, ih.2.2, .cons comma.kind_eq ihMore.2⟩

/-! ## The yield of a normal tree is derived -/

/-- What derives an expression of a level derives one of each looser level. -/
theorem Grammar.Phrase.Derives.loosen {tight loose : Level} {tree : Expr} {ts : List Token}
    (derives : (Phrase.expression tight tree).Derives ts) (le : loose.tightness ≤ tight.tightness) :
    (Phrase.expression loose tree).Derives ts := by
  -- by induction on the number of levels between the two
  obtain ⟨steps, same⟩ := Nat.exists_eq_add_of_le le
  induction steps generalizing loose with
  | zero =>
    rw [← Level.eq_of_tightness_eq same]
    exact derives
  | succ steps ih =>
    have below : loose.tightness < Level.primary.tightness := by
      have := tight.tightness_le
      omega
    have next := Level.tightness_next below
    exact .tighter (ih (by omega) (by omega))

theorem Grammar.exists_word_of_fits {lexeme : Lexeme} {kind : Kind} {t : Token}
    (fits : (Leaf.token ⟨lexeme, kind⟩).Fits t) :
    ∃ word : Word kind, word.token = t ∧ word.lexeme = lexeme := by
  cases fits
  exact ⟨⟨⟨lexeme, kind⟩, rfl⟩, rfl, rfl⟩

theorem Grammar.derives_literal {value : Literal} {t : Token} (kind : t.kind = value.kind) :
    (Phrase.expression .primary (.literal value)).Derives [t] := by
  cases value with
  | nil => exact .nil ⟨t, kind⟩
  | bool value =>
    cases value with
    | false => exact .false ⟨t, kind⟩
    | true => exact .true ⟨t, kind⟩
  | number value => exact .number ⟨t, kind⟩
  | string value => exact .string ⟨t, kind⟩

theorem Grammar.derives_arguments {trees : List Expr} {ts : List Token}
    (spells : Spells (Expr.yieldAll trees) ts)
    (derives : ∀ tree ∈ trees, ∀ us, Spells tree.yield us → Expression tree us) :
    (Phrase.arguments trees).Derives ts := by
  induction trees generalizing ts with
  | nil =>
    rw [Expr.yieldAll] at spells
    rw [List.forall₂_nil_left_iff.mp spells]
    exact .noArguments
  | cons tree trees ih =>
    cases trees with
    | nil =>
      rw [Expr.yieldAll] at spells
      exact .oneArgument (derives tree List.mem_cons_self ts spells)
    | cons next trees =>
      rw [Expr.yieldAll] at spells
      obtain ⟨us, ws, rfl, spellsFirst, spellsMore⟩ := spells_append_iff.mp spells
      obtain ⟨comma, vs, rfl, kind, spellsRest⟩ := spells_cons_iff.mp spellsMore
      refine .moreArguments ⟨comma, kind⟩ (derives tree List.mem_cons_self us spellsFirst) ?_
      exact ih spellsRest fun other mem => derives other (List.mem_cons_of_mem _ mem)

/-- The yield of a normal tree derives the tree at the level of its root. -/
theorem Expr.Normal.derives {tree : Expr} (normal : tree.Normal) {ts : List Token}
    (spells : Spells tree.yield ts) : (Phrase.expression tree.level tree).Derives ts := by
  induction normal generalizing ts with
  | assign _ ih =>
    rw [Expr.yield] at spells
    obtain ⟨t, us, rfl, fits, spellsMore⟩ := spells_cons_iff.mp spells
    obtain ⟨equal, vs, rfl, kind, spellsValue⟩ := spells_cons_iff.mp spellsMore
    obtain ⟨name, rfl, rfl⟩ := exists_word_of_fits fits
    exact .assign name ⟨equal, kind⟩ ((ih spellsValue).loosen (Nat.zero_le _))
  | operation _ tightLeft _ tightRight ihLeft ihRight =>
    rw [Expr.yield] at spells
    obtain ⟨us, ws, rfl, spellsLeft, spellsMore⟩ := spells_append_iff.mp spells
    obtain ⟨t, vs, rfl, fits, spellsRight⟩ := spells_cons_iff.mp spellsMore
    obtain ⟨mark, rfl, rfl⟩ := exists_word_of_fits fits
    exact .operation mark ((ihLeft spellsLeft).loosen tightLeft)
      ((ihRight spellsRight).loosen (atLeast_next_of_above tightRight))
  | unary _ tight ih =>
    rw [Expr.yield] at spells
    obtain ⟨t, us, rfl, fits, spellsOperand⟩ := spells_cons_iff.mp spells
    obtain ⟨mark, rfl, rfl⟩ := exists_word_of_fits fits
    exact .unary mark ((ih spellsOperand).loosen tight)
  | call _ tight _ bound ihCallee ihArguments =>
    rw [Expr.yield] at spells
    obtain ⟨us, ws, rfl, spellsCallee, spellsMore⟩ := spells_append_iff.mp spells
    obtain ⟨opening, xs, rfl, kind, spellsRest⟩ := spells_cons_iff.mp spellsMore
    obtain ⟨vs, ys, rfl, spellsArguments, spellsLast⟩ := spells_append_iff.mp spellsRest
    obtain ⟨t, rfl, fits⟩ := spells_singleton_iff.mp spellsLast
    obtain ⟨closing, rfl, rfl⟩ := exists_word_of_fits fits
    have arguments := derives_arguments spellsArguments fun tree mem us spells =>
      (ihArguments tree mem spells).loosen (Nat.zero_le _)
    have derives :=
      Phrase.Derives.call ⟨opening, kind⟩ closing ((ihCallee spellsCallee).loosen tight)
        arguments bound
    rw [List.append_assoc] at derives
    exact derives
  | grouping _ ih =>
    rw [Expr.yield] at spells
    obtain ⟨opening, xs, rfl, kind, spellsMore⟩ := spells_cons_iff.mp spells
    obtain ⟨us, ys, rfl, spellsInner, spellsLast⟩ := spells_append_iff.mp spellsMore
    obtain ⟨closing, rfl, kindClosing⟩ := spells_singleton_iff.mp spellsLast
    exact .grouping ⟨opening, kind⟩ ⟨closing, kindClosing⟩ ((ih spellsInner).loosen (Nat.zero_le _))
  | literal =>
    rw [Expr.yield] at spells
    obtain ⟨t, rfl, kind⟩ := spells_singleton_iff.mp spells
    exact derives_literal kind
  | «variable» =>
    rw [Expr.yield] at spells
    obtain ⟨t, rfl, fits⟩ := spells_singleton_iff.mp spells
    obtain ⟨name, rfl, rfl⟩ := exists_word_of_fits fits
    exact .name name

theorem Grammar.expression_iff_normal_yield {tree : Expr} {ts : List Token} :
    Expression tree ts ↔ tree.Normal ∧ Spells tree.yield ts := by
  constructor
  · intro derives
    obtain ⟨normal, -, spells⟩ := Phrase.Derives.normal_yield derives
    exact ⟨normal, spells⟩
  · rintro ⟨normal, spells⟩
    exact (normal.derives spells).loosen tree.atLeast_assignment

/-! ## Whole inputs -/

theorem Grammar.wholeExpression_eq_ok_iff {tree : Expr} {ts : List Token} :
    wholeExpression ts = .ok tree ↔ Expression tree ts := by
  constructor
  · intro whole
    unfold wholeExpression at whole
    cases outcome : expression ts.length ts with
    | mk reports reply =>
      rw [outcome] at whole
      -- only a clean outcome at the end of the tokens is no error
      cases reply with
      | abort fault rest => cases whole
      | done value rest =>
        cases reports with
        | cons report reports => cases whole
        | nil =>
          cases rest with
          | cons t rest => cases whole
          | nil =>
            cases whole
            obtain ⟨us, same, derives⟩ := (expression_sound ts.length).split outcome
            rw [same, List.append_nil]
            exact derives
  · intro derives
    have stops : Level.assignment.Stops [] := by
      intro t us same
      cases same
    have found := expression_complete derives (Nat.le_refl _) stops
    rw [List.append_nil] at found
    unfold wholeExpression
    rw [found]
    rfl

theorem parseExpression_eq_ok_iff {ts : List Token} {tree : Expr} :
    parseExpression ts = .ok tree ↔ Expression tree (Grammar.body ts) := by
  rw [← wholeExpression_eq_ok_iff, parseExpression]
  cases wholeExpression (Grammar.body ts) with
  | error report => simp [Except.mapError]
  | ok value => simp [Except.mapError]

theorem Grammar.Word.kind_ne_endOfFile {kind : Kind} (word : Word kind) (ne : kind ≠ .endOfFile) :
    word.token.kind ≠ .endOfFile := by
  rw [word.kind_eq]
  exact ne

/-- An expression does not have an ending token in it. -/
theorem Grammar.Phrase.Derives.kind_ne_endOfFile {phrase : Phrase} {ts : List Token}
    (derives : phrase.Derives ts) : ∀ t ∈ ts, t.kind ≠ .endOfFile := by
  induction derives with
  | tighter _ ih => exact ih
  | assign name equal _ ih =>
    simp only [List.forall_mem_cons]
    exact ⟨name.kind_ne_endOfFile (by simp), equal.kind_ne_endOfFile (by simp), ih⟩
  | @operation op mark _ _ _ _ _ _ ihLeft ihRight =>
    have ne : op.kind ≠ .endOfFile := by
      rcases op with op | op <;> cases op <;> simp [Operator.kind]
    simp only [List.forall_mem_append, List.forall_mem_cons]
    exact ⟨ihLeft, mark.kind_ne_endOfFile ne, ihRight⟩
  | @unary op mark _ _ _ ih =>
    have ne : op.kind ≠ .endOfFile := by
      cases op <;> simp [UnaryOp.kind]
    simp only [List.forall_mem_cons]
    exact ⟨mark.kind_ne_endOfFile ne, ih⟩
  | call opening closing _ _ _ ihCallee ihArguments =>
    simp only [List.forall_mem_append, List.forall_mem_cons]
    exact ⟨⟨ihCallee, opening.kind_ne_endOfFile (by simp), ihArguments⟩,
      closing.kind_ne_endOfFile (by simp), by simp⟩
  | grouping opening closing _ ih =>
    simp only [List.forall_mem_append, List.forall_mem_cons]
    exact ⟨⟨opening.kind_ne_endOfFile (by simp), ih⟩, closing.kind_ne_endOfFile (by simp), by simp⟩
  | name word | nil word | true word | false word | number word | string word =>
    exact List.forall_mem_singleton.mpr (word.kind_ne_endOfFile (by simp))
  | noArguments => simp
  | oneArgument _ ih => exact ih
  | moreArguments comma _ _ ih ihMore =>
    simp only [List.forall_mem_append, List.forall_mem_cons]
    exact ⟨ih, comma.kind_ne_endOfFile (by simp), ihMore⟩

/-- The tokens up to the ending token are read as a tree exactly if the tree is normal and they are
its yield.  A tree is normal exactly if the tokens that it is written down as are read as the
tree. -/
theorem parseExpression_eq_ok_iff_normal_yield (tree : Expr) :
    (∀ ts, parseExpression ts = .ok tree ↔
      tree.Normal ∧ List.Forall₂ Leaf.Fits tree.yield (ts.takeWhile (·.kind != .endOfFile))) ∧
    (tree.Normal ↔ parseExpression tree.tokens = .ok tree) := by
  have reads : ∀ ts, parseExpression ts = .ok tree ↔
      tree.Normal ∧ Spells tree.yield (Grammar.body ts) := by
    intro ts
    rw [parseExpression_eq_ok_iff, expression_iff_normal_yield]
  refine ⟨reads, ?_⟩
  rw [reads tree.tokens]
  constructor
  · intro normal
    refine ⟨normal, ?_⟩
    have derives := normal.derives (spells_written tree.yield)
    have whole : Grammar.body tree.tokens = tree.tokens := by
      rw [Grammar.body, List.takeWhile_eq_self_iff]
      intro t mem
      simpa [Token.isEnding] using derives.kind_ne_endOfFile t mem
    rw [whole]
    exact spells_written tree.yield
  · exact And.left

end Lox
