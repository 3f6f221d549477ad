import Lox.Proofs.Grammar.Yield
import Lox.Proofs.Layout.Lined
import Lox.Proofs.Number.Nearest
import Lox.Proofs.Token.Respacing
import Lox.Proofs.Tree.Bracketed

/-!
# Renderings are unambiguous

The rendering of an expression is the text of a tree in brackets, so it tells that tree.  The tree
in brackets in turn tells the expression up to lines, if the expression was read from a source
without strings: the names of its nodes are those of operators, which tell the operator by the
number of operands, or words that no operator has as its text, and what stands alone is a keyword, a
number or a name, which have no text in common.

* `Expr.Spelled`: the tokens that the expression keeps have the texts of a source.
* `Expr.Spelled.unlined_eq`: expressions with the same tree in brackets are the same up to lines.
* `render_unambiguous`: expressions of sources that are rendered alike are the same up to lines.
-/

namespace Lox

/-! ## The texts of tokens -/

/-- The text of the operator. -/
def UnaryOp.spelling : UnaryOp → String
  | .negate => "-"
  | .not => "!"

/-- The text of the operator. -/
def Operator.spelling : Operator → String
  | .binary .multiply => "*"
  | .binary .divide => "/"
  | .binary .add => "+"
  | .binary .subtract => "-"
  | .binary .greater => ">"
  | .binary .greaterEqual => ">="
  | .binary .less => "<"
  | .binary .lessEqual => "<="
  | .binary .equal => "=="
  | .binary .notEqual => "!="
  | .logical .and => "and"
  | .logical .or => "or"

theorem UnaryOp.eq_of_spelling {op other : UnaryOp} (same : op.spelling = other.spelling) :
    op = other := by
  cases op <;> cases other <;> simp [spelling] at same ⊢

theorem Operator.eq_of_spelling {op other : Operator} (same : op.spelling = other.spelling) :
    op = other := by
  rcases op with op | op <;> rcases other with other | other <;> cases op <;> cases other <;>
    simp [spelling] at same ⊢

/-- The text of a name: a word that is no keyword. -/
structure IsName (text : String) : Prop where
  word : Segment.IsWord text.toList
  other : ∀ kind, (text, kind) ∉ Kind.keywords

/-- The tokens whose texts are fixed, with their kinds. -/
def Kind.fixed : List (String × Kind) := Kind.marks ++ Kind.keywords

theorem Kind.nodup_fixed : (Kind.fixed.map Prod.snd).Nodup := by decide

/-- The kind is none of a name or a literal. -/
def Kind.isFixed : Kind → Bool
  | .identifier | .string _ | .number _ => Bool.false
  | _ => Bool.true

theorem Kind.isFixed_of_mem {text : String} {kind : Kind} (mem : (text, kind) ∈ Kind.fixed) :
    kind.isFixed := by
  have table : Kind.fixed.all (·.2.isFixed) := by decide
  exact List.all_eq_true.1 table _ mem

namespace Segment.IsToken

/-- A token with a fixed text, a name, or a literal. -/
theorem cases {kind : Kind} {text : String} (isToken : IsToken (kind, text)) :
    (text, kind) ∈ Kind.fixed ∨ (kind = .identifier ∧ IsName text) ∨
    (∃ value, kind = .string value) ∨
      ∃ value, kind = .number value := by
  obtain ⟨rest, fits⟩ := isToken
  generalize content : Content.token kind = found at fits
  generalize chars : text.toList = cs at fits
  have whole : String.ofList cs = text := by rw [← chars, String.ofList_toList]
  cases fits with
  | mark mem _ =>
    cases content
    exact .inl (List.mem_append_left _ (whole ▸ mem))
  | keyword _ mem =>
    cases content
    exact .inl (List.mem_append_right _ (whole ▸ mem))
  | identifier longest other =>
    cases content
    exact .inr (.inl ⟨rfl, chars ▸ longest.form, whole ▸ other⟩)
  | string =>
    cases content
    exact .inr (.inr (.inl ⟨_, rfl⟩))
  | number =>
    cases content
    exact .inr (.inr (.inr ⟨_, rfl⟩))
  | _ => cases content

/-- A kind with a fixed text has no other text. -/
theorem text_eq {kind : Kind} {text own : String} (isToken : IsToken (kind, text))
    (mem : (own, kind) ∈ Kind.fixed) : text = own := by
  have fixed := Kind.isFixed_of_mem mem
  rcases isToken.cases with other | ⟨rfl, -⟩ | ⟨value, rfl⟩ | ⟨value, rfl⟩
  · exact congrArg Prod.fst (List.inj_on_of_nodup_map Kind.nodup_fixed other mem rfl)
  · cases fixed
  · cases fixed
  · cases fixed

theorem isName {text : String} (isToken : IsToken (.identifier, text)) : IsName text := by
  rcases isToken.cases with mem | ⟨-, name⟩ | ⟨_, isString⟩ | ⟨_, isNumber⟩
  · cases Kind.isFixed_of_mem mem
  · exact name
  · cases isString
  · cases isNumber

end Segment.IsToken

theorem Kind.rightParen_mem_fixed : (")", Kind.rightParen) ∈ Kind.fixed := by decide

theorem UnaryOp.mem_fixed (op : UnaryOp) : (op.spelling, op.kind) ∈ Kind.fixed := by
  cases op <;> decide

theorem Operator.mem_fixed (op : Operator) : (op.spelling, op.kind) ∈ Kind.fixed := by
  rcases op with op | op <;> cases op <;> decide

/-- A literal that is rendered as nothing else: no string, and no number that has a word as its
text. -/
def Literal.IsPlain : Literal → Prop
  | .string _ => False
  | .number value => value.isFinite
  | _ => True

/-! ## Expressions as trees in brackets -/

namespace Expr

mutual

/-- The expression as a tree in brackets. -/
def bracketed : Expr → Bracketed
  | .assign name value => .node "=" [.word name.text, value.bracketed]
  | .operation left _ mark right => .node mark.text [left.bracketed, right.bracketed]
  | .unary _ mark operand => .node mark.text [operand.bracketed]
  | .call callee _ arguments => .node "call" (callee.bracketed :: bracketedAll arguments)
  | .grouping inner => .node "group" [inner.bracketed]
  | .literal value => .word value.text
  | .variable name => .word name.text

/-- The expressions as trees in brackets. -/
def bracketedAll : List Expr → List Bracketed
  | [] => []
  | expression :: rest => expression.bracketed :: bracketedAll rest

end

theorem bracketedAll_eq_map (expressions : List Expr) :
    bracketedAll expressions = expressions.map bracketed := by
  induction expressions with
  | nil => rfl
  | cons expression rest ih => rw [bracketedAll, ih, List.map_cons]

mutual

/-- An expression is rendered as its tree in brackets. -/
theorem toList_render : ∀ expression : Expr, expression.render.toList = expression.bracketed.text
  | .assign name value => by
    simp [render, node, bracketed, Bracketed.text, Bracketed.textAll, toList_render value]
  | .operation left op mark right => by
    simp [render, node, bracketed, Bracketed.text, Bracketed.textAll, toList_render left,
      toList_render right]
  | .unary op mark operand => by
    simp [render, node, bracketed, Bracketed.text, Bracketed.textAll, toList_render operand]
  | .call callee paren arguments => by
    simp [render, node, bracketed, Bracketed.text, Bracketed.textAll, toList_render callee,
      toList_renderAll arguments]
  | .grouping inner => by
    simp [render, node, bracketed, Bracketed.text, Bracketed.textAll, toList_render inner]
  | .literal value => rfl
  | .variable name => rfl

theorem toList_renderAll : ∀ expressions : List Expr,
    (renderAll expressions).toList = Bracketed.textAll (bracketedAll expressions)
  | [] => rfl
  | expression :: rest => by
    simp [renderAll, bracketedAll, Bracketed.textAll, toList_render expression,
      toList_renderAll rest]

end

/-! ## Expressions with the texts of a source -/

/-- The tokens that the expression keeps have the texts of a source, and its literals are plain. -/
inductive Spelled : Expr → Prop
  | assign {name value} : IsName name.text → Spelled value → Spelled (.assign name value)
  | operation {left op mark right} : mark.text = op.spelling → Spelled left → Spelled right →
      Spelled (.operation left op mark right)
  | unary {op mark operand} : mark.text = op.spelling → Spelled operand →
    Spelled (.unary op mark operand)
  | call {callee paren arguments} : paren.text = ")" → Spelled callee →
    (∀ argument ∈ arguments, Spelled argument) →
      Spelled (.call callee paren arguments)
  | grouping {inner} : Spelled inner → Spelled (.grouping inner)
  | literal {value} : value.IsPlain → Spelled (.literal value)
  | variable {name} : IsName name.text → Spelled (.variable name)

end Expr

/-! ## Words -/

theorem isSolid_of_continuesWord {c : Char} (continues : Segment.continuesWord c) :
    Bracketed.isSolid c :=
  Bracketed.isSolid_of (by decide) (by decide) (by decide) continues

theorem isSolid_of_isNumeric {c : Char} (numeric : Numeral.isNumeric c) : Bracketed.isSolid c :=
  Bracketed.isSolid_of (by decide) (by decide) (by decide) numeric

/-- No word starts as a number does. -/
theorem isNumeric_of_startsWord {c : Char} (starts : Segment.startsWord c) :
    Numeral.isNumeric c = false := by
  have digit := Segment.isDigit_eq_false_of_startsWord starts
  rw [Numeral.isNumeric, digit, Bool.false_or, Bool.or_eq_false_iff, beq_eq_false_iff_ne,
    beq_eq_false_iff_ne]
  constructor
  all_goals
    rintro rfl
    exact absurd starts (by decide)

theorem IsName.isSolid {text : String} (name : IsName text) :
    ∀ c ∈ text.toList, Bracketed.isSolid c := by
  intro c mem
  exact isSolid_of_continuesWord (name.word.continues c mem)

/-- The text of a number has no other characters in it. -/
theorem Numeral.ne_text {x : Float} (finite : x.isFinite) {word : String} {c : Char}
    (mem : c ∈ word.toList) (other : isNumeric c = false) : word ≠ text x := by
  rintro rfl
  rw [isNumeric_of_mem_text finite mem] at other
  cases other

/-- No keyword is rendered as a number is. -/
theorem Kind.ne_text_of_mem_keywords {word : String} {kind : Kind}
    (mem : (word, kind) ∈ Kind.keywords) {x : Float} (finite : x.isFinite) :
    word ≠ Numeral.text x := by
  have table : Kind.keywords.all (fun entry => entry.1.toList.any (!Numeral.isNumeric ·)) := by
    decide
  obtain ⟨c, among, other⟩ := List.any_eq_true.1 (List.all_eq_true.1 table _ mem)
  exact Numeral.ne_text finite among (Bool.not_eq_true' _ ▸ other)

/-- A plain literal is a keyword or a number. -/
theorem Literal.IsPlain.cases {value : Literal} (plain : value.IsPlain) :
    (value.text, value.kind) ∈ Kind.keywords ∨ ∃ x, value = .number x ∧ x.isFinite := by
  cases value with
  | nil => exact .inl (by decide)
  | bool value => cases value <;> exact .inl (by decide)
  | number x => exact .inr ⟨x, rfl, plain⟩
  | string => exact absurd plain id

theorem Literal.eq_of_kind {value other : Literal} (same : value.kind = other.kind) :
    value = other := by
  rcases value with _ | (_ | _) | _ | _ <;> rcases other with _ | (_ | _) | _ | _ <;>
    simp [kind] at same ⊢ <;>
    exact same

namespace Literal.IsPlain

variable {value other : Literal}

theorem isSolid (plain : value.IsPlain) : ∀ c ∈ value.text.toList, Bracketed.isSolid c := by
  rcases plain.cases with mem | ⟨x, rfl, finite⟩
  · have table : Kind.keywords.all (fun entry => entry.1.toList.all Bracketed.isSolid) := by decide
    exact List.all_eq_true.1 (List.all_eq_true.1 table _ mem)
  · exact fun c mem => isSolid_of_isNumeric (Numeral.isNumeric_of_mem_text finite mem)

/-- Plain literals are told by their texts. -/
theorem text_inj (plain : value.IsPlain) (plainOther : other.IsPlain)
    (same : value.text = other.text) : value = other := by
  rcases plain.cases with mem | ⟨x, rfl, finite⟩
  · rcases plainOther.cases with memOther | ⟨y, rfl, finite⟩
    · have texts : (Kind.keywords.map Prod.fst).Nodup := by decide
      exact eq_of_kind (congrArg Prod.snd (List.inj_on_of_nodup_map texts mem memOther same))
    · exact absurd same (Kind.ne_text_of_mem_keywords mem finite)
  · rcases plainOther.cases with memOther | ⟨y, rfl, finiteOther⟩
    · exact absurd same.symm (Kind.ne_text_of_mem_keywords memOther finite)
    · exact congrArg Literal.number (Numeral.text_inj finite finiteOther same)

end Literal.IsPlain

/-- No name is rendered as a literal is. -/
theorem IsName.ne_text {name : String} (isName : IsName name) {value : Literal}
    (plain : value.IsPlain) : name ≠ value.text := by
  rcases plain.cases with mem | ⟨x, rfl, finite⟩
  · rintro rfl
    exact isName.other _ mem
  · obtain ⟨word, -⟩ := isName
    generalize chars : name.toList = cs at word
    cases word with
    | @mk c cs starts _ =>
      exact Numeral.ne_text finite (chars ▸ List.mem_cons_self) (isNumeric_of_startsWord starts)

/-! ## The tree in brackets tells the expression -/

namespace Expr

/-- The forms of expressions that a tree in brackets shows by itself. -/
inductive Form where
  | assignment
  | call
  | grouping
  | operation
  | unary
  | alone

/-- The form of an expression. -/
def form : Expr → Form
  | .assign _ _ => .assignment
  | .operation _ _ _ _ => .operation
  | .unary _ _ _ => .unary
  | .call _ _ _ => .call
  | .grouping _ => .grouping
  | .literal _ | .variable _ => .alone

/-- The form that a tree in brackets shows: the name of a node tells it, or the number of its
children. -/
def shown : Bracketed → Form
  | .word _ => .alone
  | .node name children =>
    if name = "=" then .assignment
    else if name = "call" then .call
    else if name = "group" then .grouping
    else if children.length = 2 then .operation
    else .unary

section Unlined

variable (left right inner callee : Expr) (name mark paren : Lexeme) (arguments : List Expr)

theorem unlined_assign : unlined (assign name right) = assign (unlined name) (unlined right) := rfl

theorem unlined_operation (op : Operator) :
    unlined (operation left op mark right) = operation (unlined left) op (unlined mark)
      (unlined right) := rfl

theorem unlined_unary (op : UnaryOp) :
    unlined (unary op mark right) = unary op (unlined mark) (unlined right) := rfl

theorem unlined_call :
    unlined (call callee paren arguments) = call (unlined callee) (unlined paren)
      (unlined arguments) :=
  reline_call _ callee paren arguments

theorem unlined_grouping : unlined (grouping inner) = grouping (unlined inner) := rfl

theorem unlined_variable : unlined («variable» name) = «variable» (unlined name) := rfl

end Unlined

namespace Spelled

theorem shown_eq {tree : Expr} (spelled : tree.Spelled) : shown tree.bracketed = tree.form := by
  cases spelled with
  | @operation _ op mark _ spelling =>
    rw [bracketed, spelling]
    rcases op with op | op <;> cases op <;> simp [shown, Operator.spelling, form]
  | @unary op mark _ spelling =>
    rw [bracketed, spelling]
    cases op <;> simp [shown, UnaryOp.spelling, form]
  | _ => simp [bracketed, shown, form]

theorem solid {tree : Expr} (spelled : tree.Spelled) : tree.bracketed.Solid := by
  induction spelled with
  | assign name _ ih =>
    refine .node (List.all_eq_true.1 (by decide)) ?_
    simp only [List.forall_mem_cons]
    exact ⟨.word name.isSolid, ih, by simp⟩
  | @operation _ op mark _ spelling _ _ ihLeft ihRight =>
    have texts : op.spelling.toList.all Bracketed.isSolid := by rcases op with op |
      op <;> cases op <;> decide
    rw [← spelling] at texts
    refine .node (List.all_eq_true.1 texts) ?_
    simp only [List.forall_mem_cons]
    exact ⟨ihLeft, ihRight, by simp⟩
  | @unary op mark _ spelling _ ih =>
    have texts : op.spelling.toList.all Bracketed.isSolid := by cases op <;> decide
    rw [← spelling] at texts
    exact .node (List.all_eq_true.1 texts) (List.forall_mem_singleton.2 ih)
  | call _ _ _ ihCallee ihArguments =>
    refine .node (List.all_eq_true.1 (by decide)) ?_
    rw [bracketedAll_eq_map, List.forall_mem_cons, List.forall_mem_map]
    exact ⟨ihCallee, ihArguments⟩
  | grouping _ ih => exact .node (List.all_eq_true.1 (by decide)) (List.forall_mem_singleton.2 ih)
  | literal plain => exact .word plain.isSolid
  | «variable» name => exact .word name.isSolid

theorem form_eq {tree other : Expr} (spelled : tree.Spelled) (spelledOther : other.Spelled)
    (same : tree.bracketed = other.bracketed) : tree.form = other.form := by
  rw [← spelled.shown_eq, same, spelledOther.shown_eq]

/-- The expression is told by its tree in brackets, up to lines. -/
def IsTold (tree : Expr) : Prop :=
  ∀ {other : Expr}, other.Spelled → tree.bracketed = other.bracketed → unlined tree = unlined other

theorem unlined_lexeme {lexeme other : Lexeme} (same : lexeme.text = other.text) :
    unlined lexeme = unlined other :=
  congrArg (Lexeme.mk · 0) same

theorem unlined_all {trees others : List Expr} (told : ∀ tree ∈ trees, IsTold tree)
    (spelled : ∀ other ∈ others, other.Spelled)
    (same : trees.map bracketed = others.map bracketed) : unlined trees = unlined others := by
  induction trees generalizing others with
  | nil =>
    rw [List.map_nil, eq_comm, List.map_eq_nil_iff] at same
    rw [same]
  | cons tree trees ih =>
    obtain ⟨other, others, rfl, first, rest⟩ := List.map_eq_cons_iff.1 same.symm
    obtain ⟨toldTree, toldTrees⟩ := List.forall_mem_cons.1 told
    obtain ⟨spelledOther, spelledOthers⟩ := List.forall_mem_cons.1 spelled
    exact congrArg₂ List.cons (toldTree spelledOther first.symm)
      (ih toldTrees spelledOthers rest.symm)

/-- Expressions with the same tree in brackets are the same up to lines. -/
theorem unlined_eq {tree : Expr} (spelled : tree.Spelled) : IsTold tree := by
  -- The tree in brackets shows the form, so only expressions of one form are left to compare.
  induction spelled with
  | @assign name value isName spelled ih =>
    intro other spelledOther same
    have forms := form_eq (.assign isName spelled) spelledOther same
    cases spelledOther with
    | @assign nameOther valueOther _ spelledOther =>
      simp only [bracketed, Bracketed.node.injEq, List.cons.injEq, Bracketed.word.injEq] at same
      obtain ⟨-, names, values, -⟩ := same
      rw [unlined_assign, unlined_assign, unlined_lexeme names, ih spelledOther values]
    | _ => cases forms
  | @operation left op mark right spelling spelledLeft spelledRight ihLeft ihRight =>
    intro other spelledOther same
    have forms := form_eq (.operation spelling spelledLeft spelledRight) spelledOther same
    cases spelledOther with
    | @operation leftOther opOther markOther rightOther spellingOther spelledLeft spelledRight =>
      simp only [bracketed, Bracketed.node.injEq, List.cons.injEq] at same
      obtain ⟨marks, lefts, rights, -⟩ := same
      obtain rfl : op = opOther :=
        Operator.eq_of_spelling (spelling.symm.trans (marks.trans spellingOther))
      rw [unlined_operation, unlined_operation, unlined_lexeme marks, ihLeft spelledLeft lefts,
        ihRight spelledRight rights]
    | _ => cases forms
  | @unary op mark operand spelling spelled ih =>
    intro other spelledOther same
    have forms := form_eq (.unary spelling spelled) spelledOther same
    cases spelledOther with
    | @unary opOther markOther operandOther spellingOther spelledOther =>
      simp only [bracketed, Bracketed.node.injEq, List.cons.injEq] at same
      obtain ⟨marks, operands, -⟩ := same
      obtain rfl : op = opOther :=
        UnaryOp.eq_of_spelling (spelling.symm.trans (marks.trans spellingOther))
      rw [unlined_unary, unlined_unary, unlined_lexeme marks, ih spelledOther operands]
    | _ => cases forms
  | @call callee paren arguments closes spelledCallee spelledArguments ihCallee ihArguments =>
    intro other spelledOther same
    have forms := form_eq (.call closes spelledCallee spelledArguments) spelledOther same
    cases spelledOther with
    | @call calleeOther parenOther argumentsOther closesOther spelledCallee spelledArguments =>
      simp only [bracketed, Bracketed.node.injEq, List.cons.injEq, bracketedAll_eq_map] at same
      obtain ⟨-, callees, all⟩ := same
      rw [unlined_call, unlined_call, unlined_lexeme (closes.trans closesOther.symm),
        ihCallee spelledCallee callees, unlined_all ihArguments spelledArguments all]
    | _ => cases forms
  | @grouping inner spelled ih =>
    intro other spelledOther same
    have forms := form_eq (.grouping spelled) spelledOther same
    cases spelledOther with
    | @grouping innerOther spelledOther =>
      simp only [bracketed, Bracketed.node.injEq, List.cons.injEq] at same
      rw [unlined_grouping, unlined_grouping, ih spelledOther same.2.1]
    | _ => cases forms
  | @literal value plain =>
    intro other spelledOther same
    have forms := form_eq (.literal plain) spelledOther same
    cases spelledOther with
    | @literal valueOther plainOther => rw [plain.text_inj plainOther (Bracketed.word.inj same)]
    | @«variable» name isName => exact absurd (Bracketed.word.inj same).symm (isName.ne_text plain)
    | _ => cases forms
  | @«variable» name isName =>
    intro other spelledOther same
    have forms := form_eq (.variable isName) spelledOther same
    cases spelledOther with
    | @literal value plain => exact absurd (Bracketed.word.inj same) (isName.ne_text plain)
    | @«variable» nameOther _ =>
      rw [unlined_variable, unlined_variable, unlined_lexeme (Bracketed.word.inj same)]
    | _ => cases forms

/-- Expressions that are rendered alike are the same up to lines. -/
theorem unlined_eq_of_render_eq {tree other : Expr} (spelled : tree.Spelled)
    (spelledOther : other.Spelled) (same : tree.render = other.render) :
    unlined tree = unlined other := by
  have texts := congrArg String.toList same
  rw [toList_render, toList_render] at texts
  exact spelled.unlined_eq spelledOther (spelled.solid.text_inj spelledOther.solid texts)

end Spelled

end Expr

/-! ## Expressions of sources -/

namespace Leaf

/-- What a tree says about a token of a source in which all literals are plain. -/
def IsPlain : Leaf → Prop
  | .token own => Segment.IsToken own.spelling
  | .kind own => (∀ text, own ≠ .string text) ∧ ∀ x, own = .number x → x.isFinite

end Leaf

theorem Expr.mem_yieldAll {tree : Expr} {trees : List Expr} (mem : tree ∈ trees) {leaf : Leaf}
    (among : leaf ∈ tree.yield) : leaf ∈ Expr.yieldAll trees := by
  induction trees with
  | nil => cases mem
  | cons first trees ih =>
    cases trees with
    | nil =>
      cases List.mem_singleton.1 mem
      exact among
    | cons next trees =>
      rw [Expr.yieldAll, List.mem_append]
      rcases List.mem_cons.1 mem with rfl | mem
      · exact .inl among
      · exact .inr (List.mem_cons_of_mem _ (ih mem))

theorem Literal.isPlain_of_kind {value : Literal} (plain : (Leaf.kind value.kind).IsPlain) :
    value.IsPlain := by
  obtain ⟨string, number⟩ := plain
  cases value with
  | nil | bool => trivial
  | number x => exact number x rfl
  | string text => exact string text rfl

theorem Expr.Normal.spelled {tree : Expr} (normal : tree.Normal)
    (plain : ∀ leaf ∈ tree.yield, leaf.IsPlain) : tree.Spelled := by
  induction normal with
  | assign _ ih =>
    simp only [yield, List.forall_mem_cons] at plain
    exact .assign (Segment.IsToken.isName plain.1) (ih plain.2.2)
  | @operation _ op _ _ _ _ _ _ ihLeft ihRight =>
    simp only [yield, List.forall_mem_append, List.forall_mem_cons] at plain
    obtain ⟨left, mark, right⟩ := plain
    exact .operation (Segment.IsToken.text_eq mark op.mem_fixed) (ihLeft left) (ihRight right)
  | @unary op _ _ _ _ ih =>
    simp only [yield, List.forall_mem_cons] at plain
    exact .unary (Segment.IsToken.text_eq plain.1 op.mem_fixed) (ih plain.2)
  | call _ _ _ _ ihCallee ihArguments =>
    simp only [yield, List.forall_mem_append, List.forall_mem_cons] at plain
    obtain ⟨callee, -, arguments, paren, -⟩ := plain
    refine .call (Segment.IsToken.text_eq paren Kind.rightParen_mem_fixed) (ihCallee callee) ?_
    intro argument mem
    exact ihArguments argument mem fun leaf among => arguments leaf (mem_yieldAll mem among)
  | grouping _ ih =>
    simp only [yield, List.forall_mem_append, List.forall_mem_cons] at plain
    exact .grouping (ih plain.2.1)
  | literal =>
    simp only [yield, List.forall_mem_cons] at plain
    exact .literal (Literal.isPlain_of_kind plain.1)
  | «variable» =>
    simp only [yield, List.forall_mem_cons] at plain
    exact .variable (Segment.IsToken.isName plain.1)

theorem isPlain_of_spells {leaves : List Leaf} {ts : List Token} (spells : Spells leaves ts)
    (tokens : ∀ t ∈ ts, Segment.IsToken t.spelling ∧ (Leaf.kind t.kind).IsPlain) :
    ∀ leaf ∈ leaves, leaf.IsPlain := by
  induction spells with
  | nil => simp
  | @cons leaf t leaves ts fits _ ih =>
    obtain ⟨⟨isToken, plain⟩, others⟩ := List.forall_mem_cons.1 tokens
    refine List.forall_mem_cons.2 ⟨?_, ih others⟩
    cases leaf with
    | token own =>
      cases fits
      exact isToken
    | kind own =>
      cases fits
      exact plain

theorem isToken_of_mem_body {source : String} {token : Token}
    (mem : token ∈ Grammar.body (scanned source).1) : Segment.IsToken token.spelling := by
  have tiles : Segment.Tiles source.toList (Segment.all source.toList) := Segment.tiles_iff.2 rfl
  have proper := List.mem_takeWhile_imp mem
  have among := List.mem_map_of_mem (f := Token.spelling) (List.takeWhile_subset _ mem)
  rw [spellings_scanned, List.mem_append, List.mem_singleton] at among
  rcases among with among | ending
  · exact Segment.isToken_of_mem tiles among
  · have kind : token.kind = .endOfFile := congrArg Prod.fst ending
    rw [Token.isEnding, kind] at proper
    cases proper

/-- Nothing is wrong with the source, it has no strings and no infinite numbers in it, and it is
read as the expression. -/
structure IsSourceOf (source : String) (tree : Expr) : Prop where
  faultless : (scanned source).2 = []
  noString : ∀ token ∈ (scanned source).1, ∀ text, token.kind ≠ .string text
  finite : ∀ token ∈ (scanned source).1, ∀ x, token.kind = .number x → x.isFinite
  parsed : parseExpression (scanned source).1 = .ok tree

theorem IsSourceOf.spelled {source : String} {tree : Expr} (isSource : IsSourceOf source tree) :
    tree.Spelled := by
  obtain ⟨-, noString, finite, parsed⟩ := isSource
  obtain ⟨normal, spells⟩ :=
    Grammar.expression_iff_normal_yield.1 (parseExpression_eq_ok_iff.1 parsed)
  apply normal.spelled
  apply isPlain_of_spells spells
  intro token mem
  have among := List.takeWhile_subset _ mem
  exact ⟨isToken_of_mem_body mem, noString token among, finite token among⟩

/-- Expressions that are read from sources and rendered alike are the same up to lines. -/
theorem render_unambiguous {source sourceOther : String} {tree other : Expr}
    (isSource : IsSourceOf source tree) (isSourceOther : IsSourceOf sourceOther other)
    (same : tree.render = other.render) : unlined tree = unlined other :=
  isSource.spelled.unlined_eq_of_render_eq isSourceOther.spelled same

/-- The tokens of `call(-1)`, with the parentheses on the given line. -/
def callTokens (line : Nat) : List Token := [⟨⟨"call", 1⟩, .identifier⟩, ⟨⟨"(", line⟩, .leftParen⟩,
  ⟨⟨"-", line⟩, .minus⟩, ⟨⟨"1", line⟩, .number 1⟩, ⟨⟨")", line⟩, .rightParen⟩, .ending line]

/-- The expression that they are. -/
def callTree (line : Nat) : Expr :=
  .call (.variable ⟨"call", 1⟩) ⟨")", line⟩ [.unary .negate ⟨"-", line⟩ (.literal (.number 1))]

theorem scanned_call : scanned "call(-1)" = (callTokens 1, []) := by
  have segments : Segment.all ['c', 'a', 'l', 'l', '(', '-', '1', ')'] =
      [⟨['c', 'a', 'l', 'l'], .token .identifier⟩,
      ⟨['('], .token .leftParen⟩, ⟨['-'], .token .minus⟩, ⟨['1'], .token (.number 1)⟩,
      ⟨[')'], .token .rightParen⟩] := by decide +kernel
  have text : "call(-1)".toList = ['c', 'a', 'l', 'l', '(', '-', '1', ')'] := String.toList_ofList
  simp only [scanned, scan, text, segments]
  rfl

theorem scanned_call_twoLines : scanned "call\n(-1)" = (callTokens 2, []) := by
  have segments : Segment.all ['c', 'a', 'l', 'l', '\n', '(', '-', '1', ')'] =
      [⟨['c', 'a', 'l', 'l'], .token .identifier⟩, ⟨['\n'], .blank⟩, ⟨['('], .token .leftParen⟩,
        ⟨['-'], .token .minus⟩, ⟨['1'], .token (.number 1)⟩, ⟨[')'], .token .rightParen⟩] := by
          decide +kernel
  have text : "call\n(-1)".toList = ['c', 'a', 'l', 'l', '\n', '(', '-', '1', ')'] :=
    String.toList_ofList
  simp only [scanned, scan, text, segments]
  rfl

theorem parseExpression_callTokens (line : Nat) :
    parseExpression (callTokens line) = .ok (callTree line) := by
  rw [parseExpression_eq_ok_iff, Grammar.expression_iff_normal_yield]
  have argument : (Expr.unary .negate ⟨"-", line⟩ (.literal (.number 1))).Normal :=
    .unary .literal (Grammar.Level.tightness_le _)
  refine ⟨.call .variable (Grammar.Level.tightness_le _) (List.forall_mem_singleton.2 argument)
    (by simp), ?_⟩
  exact .cons rfl (.cons rfl (.cons rfl (.cons rfl (.cons rfl .nil))))

theorem isSourceOf_callTree {source : String} {line : Nat}
    (scans : scanned source = (callTokens line, [])) : IsSourceOf source (callTree line) := by
  refine ⟨?_, ?_, ?_, ?_⟩ <;> rw [scans]
  · simp [callTokens, Token.ending]
  · have finite : (1 : Float).isFinite := by decide +kernel
    simpa [callTokens, Token.ending] using finite
  · exact parseExpression_callTokens line

theorem render_callTree (line : Nat) : (callTree line).render = "(call call (- 1))" := by
  have number : Numeral.text 1 = "1" := by decide +kernel
  simp only [callTree, Expr.render, Expr.renderAll, Literal.text, number]
  decide

/-- A call of a variable that is named as calls are rendered, on one line and on two. -/
theorem render_unambiguous_callOnTwoLines :
    IsSourceOf "call(-1)" (callTree 1) ∧ IsSourceOf "call\n(-1)" (callTree 2) ∧
      (callTree 1).render = "(call call (- 1))" ∧ (callTree 2).render = "(call call (- 1))" ∧
      callTree 1 ≠ callTree 2 ∧ unlined (callTree 1) = unlined (callTree 2) := by
  have first := isSourceOf_callTree scanned_call
  have second := isSourceOf_callTree scanned_call_twoLines
  have same : (callTree 1).render = (callTree 2).render :=
    (render_callTree 1).trans (render_callTree 2).symm
  refine ⟨first, second, render_callTree 1, render_callTree 2, ?_,
    render_unambiguous first second same⟩
  simp [callTree]

end Lox
