import Lox.Proofs.Grammar.Expression

/-!
# What parsers take

A parser leaves the last of the tokens that it is given, whatever comes of it: it never goes back,
and it skips nothing.  If it is done with an expression or a statement, it has taken a token.  Every
statement has taken a semicolon or an opening brace, since nothing else can end or begin what it
ends with.

* `Parser.Shrinks`: what is left is the last of what was there.
* `Parser.Takes`: moreover, if the parser is done, it took a token of the given sort.
* `recovering_consumes`: a declaration takes a token even if it cannot be parsed and is dropped.
-/

namespace Lox

namespace Outcome

variable {α β : Type}

/-- The tokens that are left. -/
def rest (o : Outcome α) : List Token :=
  match o.reply with
  | .done _ rest => rest
  | .abort _ rest => rest

variable {o : Outcome α} {ts rest : List Token}

theorem rest_of_done {value : α} (replied : o.reply = .done value rest) : o.rest = rest := by
  simp only [Outcome.rest, replied]

theorem rest_of_abort {fault : SyntaxFault} (replied : o.reply = .abort fault rest) :
    o.rest = rest := by
  simp only [Outcome.rest, replied]

theorem bind_of_done {value : α} (replied : o.reply = .done value rest)
    (next : α → List Token → Outcome β) :
    o.bind next = ⟨o.reports ++ (next value rest).reports, (next value rest).reply⟩ := by
  simp only [bind, replied]

theorem bind_of_abort {fault : SyntaxFault} (replied : o.reply = .abort fault rest)
    (next : α → List Token → Outcome β) : o.bind next = ⟨o.reports, .abort fault rest⟩ := by
  simp only [bind, replied]

/-- The tokens that are left are the last of the given ones, and if there is a value, one of the
others is wanted. -/
def Takes (Wanted : Token → Prop) (ts : List Token) (o : Outcome α) : Prop :=
  ∃ taken, ts = taken ++ o.rest ∧ ∀ value, o.reply = .done value o.rest → ∃ t ∈ taken, Wanted t

variable {Wanted Fine : Token → Prop}

theorem Takes.of_done (takes : o.Takes Wanted ts) {value : α}
    (replied : o.reply = .done value rest) :
    ∃ taken, ts = taken ++ rest ∧ ∃ t ∈ taken, Wanted t := by
  obtain ⟨taken, same, costs⟩ := takes
  rw [rest_of_done replied] at same costs
  exact ⟨taken, same, costs value replied⟩

theorem Takes.rest_suffix (takes : o.Takes Wanted ts) : o.rest <:+ ts := by
  obtain ⟨taken, same, -⟩ := takes
  exact ⟨taken, same.symm⟩

/-- A value costs at least one token. -/
theorem Takes.length_lt (takes : o.Takes Wanted ts) {value : α}
    (replied : o.reply = .done value rest) : rest.length < ts.length := by
  obtain ⟨taken, same, t, mem, -⟩ := takes.of_done replied
  have positive := List.length_pos_of_mem mem
  rw [same, List.length_append]
  omega

theorem Takes.mono (takes : o.Takes Wanted ts) (imp : ∀ t, Wanted t → Fine t) :
    o.Takes Fine ts := by
  obtain ⟨taken, same, costs⟩ := takes
  refine ⟨taken, same, fun value replied => ?_⟩
  obtain ⟨t, mem, wanted⟩ := costs value replied
  exact ⟨t, mem, imp t wanted⟩

/-- What takes tokens behind a token takes them of the whole. -/
theorem Takes.behind (takes : o.Takes Wanted ts) (first : Token) :
    o.Takes Wanted (first :: ts) := by
  obtain ⟨taken, same, costs⟩ := takes
  refine ⟨first :: taken, by rw [List.cons_append, ← same], fun value replied => ?_⟩
  obtain ⟨t, mem, wanted⟩ := costs value replied
  exact ⟨t, List.mem_cons_of_mem first mem, wanted⟩

/-- A wanted token that has been taken counts, whatever is taken behind it. -/
theorem takes_of_head (suffix : o.rest <:+ ts) {t : Token} (wanted : Wanted t) :
    o.Takes Wanted (t :: ts) := by
  obtain ⟨taken, same⟩ := suffix
  exact ⟨t :: taken, by rw [List.cons_append, same], fun _ _ => ⟨t, List.mem_cons_self, wanted⟩⟩

theorem takes_done {t : Token} (wanted : Wanted t) (value : α) (ts : List Token) :
    (done value ts).Takes Wanted (t :: ts) :=
  takes_of_head (o := done value ts) (List.suffix_refl ts) wanted

/-- What stops takes no token for a value. -/
theorem takes_abort (fault : SyntaxFault) (ts : List Token) :
    (abort fault ts : Outcome α).Takes Wanted ts :=
  ⟨[], rfl, fun _ replied => by cases replied⟩

theorem rest_bind_suffix {next : α → List Token → Outcome β} (suffix : o.rest <:+ ts)
    (further : ∀ value rest, (next value rest).rest <:+ rest) : (o.bind next).rest <:+ ts := by
  cases replied : o.reply with
  | done value rest =>
    rw [rest_of_done replied] at suffix
    rw [bind_of_done replied]
    exact (further value rest).trans suffix
  | abort fault rest =>
    rw [rest_of_abort replied] at suffix
    rw [bind_of_abort replied]
    exact suffix

theorem Takes.bind {next : α → List Token → Outcome β} (takes : o.Takes Wanted ts)
    (further : ∀ value rest, (next value rest).rest <:+ rest) : (o.bind next).Takes Wanted ts := by
  cases replied : o.reply with
  | done value middle =>
    obtain ⟨taken, same, t, mem, wanted⟩ := takes.of_done replied
    obtain ⟨more, sameMiddle⟩ := further value middle
    rw [bind_of_done replied]
    refine ⟨taken ++ more, ?_, fun _ _ => ⟨t, List.mem_append_left more mem, wanted⟩⟩
    calc ts = taken ++ (more ++ (next value middle).rest) := by rw [same, sameMiddle]
      _ = taken ++ more ++ (next value middle).rest := (List.append_assoc ..).symm
  | abort fault rest =>
    obtain ⟨taken, same, -⟩ := takes
    rw [rest_of_abort replied] at same
    rw [bind_of_abort replied]
    exact ⟨taken, same, fun _ other => by cases other⟩

theorem Takes.map (takes : o.Takes Wanted ts) (f : α → β) : (o.map f).Takes Wanted ts :=
  takes.bind fun value rest => List.suffix_refl (done (f value) rest).rest

theorem takes_bind {next : α → List Token → Outcome β} (suffix : o.rest <:+ ts)
    (further : ∀ value rest, (next value rest).Takes Wanted rest) :
    (o.bind next).Takes Wanted ts := by
  obtain ⟨before, same⟩ := suffix
  cases replied : o.reply with
  | done value middle =>
    obtain ⟨taken, sameMiddle, costs⟩ := further value middle
    rw [rest_of_done replied] at same
    rw [bind_of_done replied]
    refine ⟨before ++ taken, ?_, fun last final => ?_⟩
    · calc ts = before ++ (taken ++ (next value middle).rest) := by rw [← same, ← sameMiddle]
        _ = before ++ taken ++ (next value middle).rest := (List.append_assoc ..).symm
    · obtain ⟨t, mem, wanted⟩ := costs last final
      exact ⟨t, List.mem_append_right before mem, wanted⟩
  | abort fault rest =>
    rw [rest_of_abort replied] at same
    rw [bind_of_abort replied]
    exact ⟨before, same.symm, fun _ other => by cases other⟩

end Outcome

namespace Parser

variable {α β : Type} {Wanted Fine : Token → Prop}

/-- The tokens that are left are the last of those that the parser was started on. -/
def Shrinks (p : Parser α) : Prop := ∀ ts, (p ts).rest <:+ ts

/-- Moreover, if the parser has a value, one of the tokens that it took is wanted. -/
def Takes (Wanted : Token → Prop) (p : Parser α) : Prop := ∀ ts, (p ts).Takes Wanted ts

/-- If the parser has a value, it took a token. -/
def Consumes (p : Parser α) : Prop := p.Takes fun _ => True

theorem Takes.shrinks {p : Parser α} (takes : p.Takes Wanted) : p.Shrinks :=
  fun ts => (takes ts).rest_suffix

theorem Takes.consumes {p : Parser α} (takes : p.Takes Wanted) : p.Consumes :=
  fun ts => (takes ts).mono fun _ _ => trivial

theorem Consumes.shrinks {p : Parser α} (consumes : p.Consumes) : p.Shrinks :=
  Takes.shrinks consumes

theorem Takes.mono {p : Parser α} (takes : p.Takes Wanted) (imp : ∀ t, Wanted t → Fine t) :
    p.Takes Fine :=
  fun ts => (takes ts).mono imp

/-! ## Combinators -/

theorem shrinks_pure (value : α) : (pure value : Parser α).Shrinks := fun ts => List.suffix_refl ts

theorem takes_abort (fault : SyntaxFault) : (abort fault : Parser α).Takes Wanted :=
  Outcome.takes_abort fault

theorem Shrinks.bind {p : Parser α} (shrinks : p.Shrinks) {next : α → Parser β}
    (further : ∀ value, (next value).Shrinks) : (p >>= next).Shrinks :=
  fun ts => Outcome.rest_bind_suffix (shrinks ts) further

theorem Takes.bind {p : Parser α} (takes : p.Takes Wanted) {next : α → Parser β}
    (further : ∀ value, (next value).Shrinks) : (p >>= next).Takes Wanted :=
  fun ts => (takes ts).bind further

theorem Shrinks.bind_takes {p : Parser α} (shrinks : p.Shrinks) {next : α → Parser β}
    (further : ∀ value, (next value).Takes Wanted) : (p >>= next).Takes Wanted :=
  fun ts => Outcome.takes_bind (shrinks ts) further

theorem Shrinks.map {p : Parser α} (shrinks : p.Shrinks) (f : α → β) : (f <$> p).Shrinks :=
  shrinks.bind fun value => shrinks_pure (f value)

theorem Takes.map {p : Parser α} (takes : p.Takes Wanted) (f : α → β) : (f <$> p).Takes Wanted :=
  takes.bind fun value => shrinks_pure (f value)

theorem shrinks_onlyIf {condition : Bool} {p : Parser Unit} (shrinks : p.Shrinks) :
    (onlyIf condition p).Shrinks := by
  cases condition with
  | true => exact shrinks
  | false => exact shrinks_pure ()

theorem shrinks_reportAt (token : Token) (fault : SyntaxFault) : (reportAt token fault).Shrinks :=
  fun ts => List.suffix_refl ts

theorem shrinks_reportHere (fault : SyntaxFault) : (reportHere fault).Shrinks :=
  fun ts => List.suffix_refl ts

theorem takes_require (requirement : Requirement) :
    (require requirement).Takes fun t => t.kind = requirement.kind := by
  intro ts
  cases ts with
  | nil => exact Outcome.takes_abort _ []
  | cons t rest =>
    rw [require]
    split
    next kind => exact Outcome.takes_done kind _ rest
    next => exact Outcome.takes_abort _ (t :: rest)

theorem shrinks_require (requirement : Requirement) : (require requirement).Shrinks :=
  (takes_require requirement).shrinks

theorem shrinks_unlessNext (kind : Kind) {p : Parser α} (shrinks : p.Shrinks) :
    (unlessNext kind p).Shrinks := by
  intro ts
  rw [unlessNext]
  split
  · exact List.suffix_refl ts
  · exact shrinks.map some ts

theorem shrinks_ifNext (kind : Kind) {p : Parser α} (shrinks : p.Shrinks) :
    (ifNext kind p).Shrinks := by
  intro ts
  cases ts with
  | nil => exact List.suffix_refl []
  | cons t rest =>
    rw [ifNext]
    split
    · exact (shrinks.map some rest).trans (List.suffix_cons t rest)
    · exact List.suffix_refl (t :: rest)

theorem shrinks_chain {step? : α → List Token → Option (Outcome α)}
    (step : ∀ value ts o, step? value ts = some o → o.rest <:+ ts) (budget : Nat) (value : α) :
    (chain step? budget value).Shrinks := by
  induction budget generalizing value with
  | zero => exact shrinks_pure value
  | succ budget ih =>
    intro ts
    cases found : step? value ts with
    | none =>
      rw [chain_of_none found]
      exact List.suffix_refl ts
    | some o =>
      rw [chain_succ found]
      exact Outcome.rest_bind_suffix (step value ts o found) ih

theorem shrinks_many {step? : Nat → List Token → Option (Outcome α)}
    (step : ∀ count ts o, step? count ts = some o → o.rest <:+ ts) (budget count : Nat) :
    (many step? budget count).Shrinks := by
  induction budget generalizing count with
  | zero => exact shrinks_pure []
  | succ budget ih =>
    intro ts
    cases found : step? count ts with
    | none =>
      rw [many_of_none found]
      exact List.suffix_refl ts
    | some o =>
      rw [many_succ found]
      exact Outcome.rest_bind_suffix (step count ts o found) fun value =>
        (ih (count + 1)).map (value :: ·)

/-- What stands behind a comma costs at least the comma. -/
theorem afterComma?_consumes {item : Nat → Parser α} (items : ∀ count, (item count).Shrinks)
    {count : Nat} {ts : List Token} {o : Outcome α} (found : afterComma? item count ts = some o) :
    o.Takes (fun _ => True) ts := by
  obtain ⟨comma, us, rfl, rfl⟩ := afterComma?_eq_some_iff.mp found
  exact Outcome.takes_of_head (items count us) trivial

theorem shrinks_separated {item : Nat → Parser α} (items : ∀ count, (item count).Shrinks)
    (budget : Nat) : (separated item budget).Shrinks := by
  intro ts
  rw [separated]
  split
  · exact List.suffix_refl ts
  · refine Outcome.rest_bind_suffix (items 0 ts) fun value => ?_
    refine (shrinks_many ?_ budget 1).map (value :: ·)
    intro count us o found
    exact (afterComma?_consumes items found).rest_suffix

end Parser

namespace Grammar

open Lox.Parser

/-! ## Expressions -/

section Expression

variable {nested : Parser Expr} (shrinks : nested.Shrinks)

include shrinks

theorem groupingRest_shrinks : (groupingRest nested).Shrinks :=
  shrinks.bind fun _ => (shrinks_require _).bind fun _ => shrinks_pure _

theorem primary_consumes : (primary nested).Consumes := by
  intro ts
  cases ts with
  | nil => exact Outcome.takes_abort _ []
  | cons t rest =>
    have taken : ∀ tree : Expr, (Outcome.done tree rest).Takes (fun _ => True) (t :: rest) :=
      fun tree => Outcome.takes_done trivial tree rest
    rw [primary]
    split
    · exact taken _
    · exact taken _
    · exact taken _
    · exact taken _
    · exact taken _
    · exact taken _
    · exact Outcome.takes_of_head (groupingRest_shrinks shrinks rest) trivial
    · exact Outcome.takes_abort _ (t :: rest)

theorem argument_shrinks (count : Nat) : (argument nested count).Shrinks :=
  (shrinks_onlyIf (shrinks_reportHere _)).bind fun _ => shrinks

theorem callRest_consumes (budget : Nat) (callee : Expr) :
    (callRest budget nested callee).Consumes := by
  refine (shrinks_separated (argument_shrinks shrinks) budget).bind_takes fun arguments => ?_
  exact (takes_require _).consumes.bind fun _ => shrinks_pure _

theorem call?_consumes {budget : Nat} {callee : Expr} {ts : List Token} {o : Outcome Expr}
    (found : call? budget nested callee ts = some o) : o.Takes (fun _ => True) ts := by
  cases ts with
  | nil => cases found
  | cons t rest =>
    rw [call?] at found
    split at found
    · cases found
      exact (callRest_consumes shrinks budget callee rest).behind t
    · cases found

theorem call_consumes (budget : Nat) : (call budget nested).Consumes := by
  refine (primary_consumes shrinks).bind fun callee => ?_
  exact shrinks_chain (fun _ _ _ found => (call?_consumes shrinks found).rest_suffix) budget callee

theorem unary_consumes (budget : Nat) : (unary budget nested).Consumes := by
  intro ts
  induction ts with
  | nil => exact call_consumes shrinks budget []
  | cons t rest ih =>
    rw [unary]
    split
    · exact (ih.map _).behind t
    · exact call_consumes shrinks budget (t :: rest)

omit shrinks in
theorem operation?_consumes {rank : Nat} {operand : Parser Expr} (consumes : operand.Consumes)
    {left : Expr} {ts : List Token} {o : Outcome Expr}
    (found : operation? rank operand left ts = some o) : o.Takes (fun _ => True) ts := by
  cases ts with
  | nil => cases found
  | cons t rest =>
    rw [operation?] at found
    split at found
    · split at found
      · cases found
        exact ((consumes rest).map _).behind t
      · cases found
    · cases found

theorem operations_consumes (budget rank : Nat) : (operations budget nested rank).Consumes := by
  induction rank with
  | zero => exact unary_consumes shrinks budget
  | succ rank ih =>
    refine ih.bind fun left => ?_
    exact shrinks_chain (fun _ _ _ found => (operation?_consumes ih found).rest_suffix) budget left

theorem assignmentRest_shrinks (target : Expr) : (assignmentRest nested target).Shrinks := by
  intro ts
  cases ts with
  | nil => exact List.suffix_refl []
  | cons t rest =>
    have assigned : (nested >>= assignTo target t).Shrinks := by
      refine shrinks.bind fun value => ?_
      cases target with
      | «variable» name => exact shrinks_pure _
      | _ => exact (shrinks_reportAt t _).bind fun _ => shrinks_pure _
    rw [assignmentRest]
    split
    · exact (assigned rest).trans (List.suffix_cons t rest)
    · exact List.suffix_refl (t :: rest)

theorem assignment_consumes (budget : Nat) : (assignment budget nested).Consumes :=
  (operations_consumes shrinks budget _).bind fun target => assignmentRest_shrinks shrinks target

end Expression

theorem expression_consumes (budget : Nat) : (expression budget).Consumes := by
  induction budget with
  | zero => exact takes_abort _
  | succ budget ih => exact assignment_consumes ih.shrinks budget

/-- The parser of every level of expressions takes a token. -/
theorem parserAt_consumes (budget : Nat) (level : Level) : (parserAt budget level).Consumes := by
  have shrinks := (expression_consumes budget).shrinks
  cases level with
  | assignment => exact assignment_consumes shrinks budget
  | call => exact call_consumes shrinks budget
  | primary => exact primary_consumes shrinks
  | _ => exact operations_consumes shrinks budget _

/-! ## Declarations that are dropped -/

theorem afterFault_suffix (ts : List Token) : afterFault ts <:+ ts := by
  fun_induction afterFault ts with
  | case1 => exact List.suffix_refl []
  | case2 t rest => exact List.suffix_cons t rest
  | case3 t => exact List.nil_suffix
  | case4 t other next rest => exact List.suffix_cons t (next :: rest)
  | case5 t other next rest goesOn ih => exact ih.trans (List.suffix_cons t (next :: rest))

/-- Recovery drops at least one token, if there is one. -/
theorem length_afterFault_lt {ts : List Token} (nonempty : ts ≠ []) :
    (afterFault ts).length < ts.length := by
  fun_induction afterFault ts with
  | case1 => exact absurd rfl nonempty
  | case2 t rest => exact Nat.lt_succ_self rest.length
  | case3 t => exact Nat.zero_lt_succ 0
  | case4 t other next rest => exact Nat.lt_succ_self (next :: rest).length
  | case5 t other next rest goesOn ih => exact Nat.lt_succ_of_lt (ih (List.cons_ne_nil next rest))

theorem recovering_of_done {statement : Parser Stmt} {ts rest : List Token} {tree : Stmt}
    (replied : (statement ts).reply = .done tree rest) :
    recovering statement ts = ⟨(statement ts).reports, .done (some tree) rest⟩ := by
  simp only [recovering, replied]

theorem recovering_of_abort {statement : Parser Stmt} {ts rest : List Token} {fault : SyntaxFault}
    (replied : (statement ts).reply = .abort fault rest) :
    recovering statement ts =
      ⟨(statement ts).reports ++ [⟨rest.head?, fault⟩], .done none (afterFault rest)⟩ := by
  simp only [recovering, replied]

theorem recovering_shrinks {statement : Parser Stmt} (shrinks : statement.Shrinks) :
    (recovering statement).Shrinks := by
  intro ts
  have suffix := shrinks ts
  cases replied : (statement ts).reply with
  | done tree rest =>
    rw [Outcome.rest_of_done replied] at suffix
    rw [recovering_of_done replied]
    exact suffix
  | abort fault rest =>
    rw [Outcome.rest_of_abort replied] at suffix
    rw [recovering_of_abort replied]
    exact (afterFault_suffix rest).trans suffix

/-- Where a token is left, a declaration takes one, whether it is parsed or dropped. -/
theorem recovering_consumes {statement : Parser Stmt} (consumes : statement.Consumes)
    {ts : List Token} (nonempty : ts ≠ []) :
    ∃ reports tree? taken rest, recovering statement ts = ⟨reports, .done tree? rest⟩ ∧
      ts = taken ++ rest ∧ taken ≠ [] := by
  cases replied : (statement ts).reply with
  | done tree rest =>
    obtain ⟨taken, same, t, mem, -⟩ := (consumes ts).of_done replied
    exact ⟨(statement ts).reports, some tree, taken, rest, recovering_of_done replied, same,
      List.ne_nil_of_mem mem⟩
  | abort fault middle =>
    have suffix := (consumes ts).rest_suffix
    rw [Outcome.rest_of_abort replied] at suffix
    obtain ⟨taken, same⟩ := (afterFault_suffix middle).trans suffix
    refine ⟨(statement ts).reports ++ [⟨middle.head?, fault⟩], none, taken, afterFault middle,
      recovering_of_abort replied, same.symm, ?_⟩
    rintro rfl
    -- nothing was taken, so nothing was dropped either, and there was nothing to drop
    have shorter := suffix.length_le
    rw [List.nil_append] at same
    rw [← same] at nonempty shorter
    by_cases empty : middle = []
    · rw [empty] at nonempty
      exact nonempty rfl
    · exact Nat.not_lt.mpr shorter (length_afterFault_lt empty)

theorem recovering_takes {statement : Parser Stmt} (consumes : statement.Consumes) {ts : List Token}
    (nonempty : ts ≠ []) : (recovering statement ts).Takes (fun _ => True) ts := by
  obtain ⟨reports, tree?, taken, rest, recovered, same, some⟩ :=
    recovering_consumes consumes nonempty
  rw [recovered]
  exact ⟨taken, same, fun _ _ => ⟨taken.head some, List.head_mem some, trivial⟩⟩

theorem declaration?_consumes {statement : Parser Stmt} (consumes : statement.Consumes)
    {count : Nat} {ts : List Token} {o : Outcome (Option Stmt)}
    (found : declaration? statement count ts = some o) : o.Takes (fun _ => True) ts := by
  rw [declaration?] at found
  split at found
  next => cases found
  next goesOn =>
    cases found
    refine recovering_takes consumes ?_
    rintro rfl
    exact goesOn rfl

/-! ## Statements -/

/-- A semicolon or an opening brace.  No statement is without one. -/
def EndsOrOpens (t : Token) : Prop := t.kind = .semicolon ∨ t.kind = .leftBrace

theorem require_endsOrOpens {requirement : Requirement} (ends : requirement.kind = .semicolon) :
    (require requirement).Takes EndsOrOpens :=
  (takes_require requirement).mono fun _ kind => .inl (kind.trans ends)

theorem parameter_shrinks (count : Nat) : (parameter count).Shrinks :=
  (shrinks_onlyIf (shrinks_reportHere _)).bind fun _ => shrinks_require _

section Statement

variable {expression : Parser Expr} (expressions : expression.Shrinks)

include expressions

theorem variableDeclaration_takes : (variableDeclaration expression).Takes EndsOrOpens := by
  refine (shrinks_require _).bind_takes fun name =>
    (shrinks_ifNext _ expressions).bind_takes fun initializer => ?_
  exact (require_endsOrOpens rfl).bind fun _ => shrinks_pure _

theorem expressionStatement_takes : (expressionStatement expression).Takes EndsOrOpens :=
  expressions.bind_takes fun _ => (require_endsOrOpens rfl).bind fun _ => shrinks_pure _

theorem printStatement_takes : (printStatement expression).Takes EndsOrOpens :=
  expressions.bind_takes fun _ => (require_endsOrOpens rfl).bind fun _ => shrinks_pure _

omit expressions in
theorem breakStatement_takes (context : Context) (keyword : Token) :
    (breakStatement context keyword).Takes EndsOrOpens := by
  refine (shrinks_onlyIf (shrinks_reportAt _ _)).bind_takes fun _ => ?_
  exact (require_endsOrOpens rfl).bind fun _ => shrinks_pure _

theorem returnStatement_takes (context : Context) (keyword : Token) :
    (returnStatement context expression keyword).Takes EndsOrOpens := by
  refine (shrinks_onlyIf (shrinks_reportAt _ _)).bind_takes fun _ => ?_
  refine (shrinks_unlessNext _ expressions).bind_takes fun _ => ?_
  exact (require_endsOrOpens rfl).bind fun _ => shrinks_pure _

theorem forInitializer_takes : (forInitializer expression).Takes EndsOrOpens := by
  intro ts
  cases ts with
  | nil => exact (expressionStatement_takes expressions).map some []
  | cons t rest =>
    rw [forInitializer]
    split
    next kind => exact Outcome.takes_done (.inl kind) none rest
    next => exact ((variableDeclaration_takes expressions).map some rest).behind t
    next => exact (expressionStatement_takes expressions).map some (t :: rest)

variable {nested : Parser Stmt} (statements : nested.Takes EndsOrOpens)

include statements

theorem ifStatement_takes : (ifStatement expression nested).Takes EndsOrOpens := by
  refine (shrinks_require _).bind_takes fun _ => expressions.bind_takes fun _ => ?_
  refine (shrinks_require _).bind_takes fun _ => statements.bind fun _ => ?_
  exact (shrinks_ifNext _ statements.shrinks).bind fun _ => shrinks_pure _

theorem whileStatement_takes : (whileStatement expression nested).Takes EndsOrOpens := by
  refine (shrinks_require _).bind_takes fun _ => expressions.bind_takes fun _ => ?_
  exact (shrinks_require _).bind_takes fun _ => statements.bind fun _ => shrinks_pure _

theorem forStatement_takes : (forStatement expression nested).Takes EndsOrOpens := by
  refine (shrinks_require _).bind_takes fun _ => (forInitializer_takes expressions).bind fun _ => ?_
  refine (shrinks_unlessNext _ expressions).bind fun _ => (shrinks_require _).bind fun _ => ?_
  refine (shrinks_unlessNext _ expressions).bind fun _ => (shrinks_require _).bind fun _ => ?_
  exact statements.shrinks.bind fun _ => shrinks_pure _

omit expressions in
theorem block_consumes (budget : Nat) : (block budget nested).Consumes := by
  have step : ∀ count ts o, declaration? nested count ts = some o → o.rest <:+ ts :=
    fun _ _ _ found => (declaration?_consumes statements.consumes found).rest_suffix
  refine (shrinks_many step budget 0).bind_takes fun _ => ?_
  exact (takes_require _).consumes.bind fun _ => shrinks_pure _

omit expressions in
theorem functionDeclaration_takes (budget : Nat) :
    (functionDeclaration budget nested).Takes EndsOrOpens := by
  refine (shrinks_require _).bind_takes fun _ => (shrinks_require _).bind_takes fun _ => ?_
  refine (shrinks_separated parameter_shrinks budget).bind_takes fun _ =>
    (shrinks_require _).bind_takes fun _ => ?_
  have opens : (require .braceBeforeBody).Takes EndsOrOpens :=
    (takes_require _).mono fun _ kind => .inr kind
  exact opens.bind fun _ => (block_consumes statements budget).shrinks.bind fun _ => shrinks_pure _

end Statement

theorem statementRule_takes (budget : Nat) {expression : Parser Expr}
    (expressions : expression.Shrinks) {nested : Position → Context → Parser Stmt}
    (statements : ∀ position context, (nested position context).Takes EndsOrOpens)
    (position : Position) (context : Context) :
    (statementRule budget expression nested position context).Takes EndsOrOpens := by
  intro ts
  cases ts with
  | nil => exact expressionStatement_takes expressions []
  | cons t rest =>
    simp only [statementRule]
    split
    next => exact (functionDeclaration_takes (statements _ _) budget rest).behind t
    next => exact (variableDeclaration_takes expressions rest).behind t
    next => exact (breakStatement_takes context t rest).behind t
    next => exact (forStatement_takes expressions (statements _ _) rest).behind t
    next => exact (ifStatement_takes expressions (statements _ _) rest).behind t
    next => exact (printStatement_takes expressions rest).behind t
    next => exact (returnStatement_takes expressions context t rest).behind t
    next => exact (whileStatement_takes expressions (statements _ _) rest).behind t
    next kind =>
      have suffix :=
        ((block_consumes (statements .declaration context) budget).shrinks.map Stmt.block) rest
      exact Outcome.takes_of_head suffix (.inr kind)
    next => exact expressionStatement_takes expressions (t :: rest)

/-- A statement takes a semicolon or an opening brace. -/
theorem statement_takes (budget : Nat) (position : Position) (context : Context) :
    (statement budget position context).Takes EndsOrOpens := by
  induction budget generalizing position context with
  | zero => exact takes_abort _
  | succ budget ih =>
    exact statementRule_takes budget (expression_consumes _).shrinks ih position context

end Grammar

end Lox
