import Lox.Proofs.Grammar.Lookahead

/-!
# Parsing up to an ending token

A list of tokens is its body and a tail, which is empty or begins with an ending token.  No rule
asks for an ending token, so a rule does with the whole list what it does with the body alone: it
leaves the tail where it is, and a report at the end of the body is at the first token of the tail.

`Parser.Ends` says this of a parser.  There is one lemma for each combinator and for each rule
without a nested statement; the rules with one are read by a parser that counts.
-/

namespace Lox

open Lox.Parser

/-- The tokens are none, or they begin with an ending token. -/
def Parser.IsTail (tail : List Token) : Prop := ∀ t others, tail = t :: others → t.kind = .endOfFile

/-- The report with the first token of a tail in the place of the end. -/
def Report.followedBy (tail : List Token) (r : Report) : Report :=
  { r with token? := r.token?.or tail.head? }

namespace Outcome

variable {α β : Type} {tail : List Token}

/-- The outcome with a tail behind the tokens that are left. -/
def followedBy (tail : List Token) (o : Outcome α) : Outcome α :=
  match o.reply with
  | .done value rest => ⟨o.reports.map (Report.followedBy tail), .done value (rest ++ tail)⟩
  | .abort fault rest => ⟨o.reports.map (Report.followedBy tail), .abort fault (rest ++ tail)⟩

theorem followedBy_of_done {o : Outcome α} {value : α} {rest : List Token}
    (replied : o.reply = .done value rest) :
    o.followedBy tail = ⟨o.reports.map (Report.followedBy tail), .done value (rest ++ tail)⟩ := by
  simp only [followedBy, replied]

theorem followedBy_of_abort {o : Outcome α} {fault : SyntaxFault} {rest : List Token}
    (replied : o.reply = .abort fault rest) :
    o.followedBy tail = ⟨o.reports.map (Report.followedBy tail), .abort fault (rest ++ tail)⟩ := by
  simp only [followedBy, replied]

theorem followedBy_done (value : α) (rest : List Token) :
    (done value rest).followedBy tail = done value (rest ++ tail) := rfl

theorem rest_followedBy (o : Outcome α) : (o.followedBy tail).rest = o.rest ++ tail := by
  cases replied : o.reply with
  | done value rest => rw [followedBy_of_done replied, rest_of_done replied, rest_of_done rfl]
  | abort fault rest => rw [followedBy_of_abort replied, rest_of_abort replied, rest_of_abort rfl]

theorem reply_of_followedBy_done {o : Outcome α} {value : α} {rest : List Token}
    (replied : (o.followedBy tail).reply = .done value rest) : o.reply = .done value o.rest := by
  cases found : o.reply with
  | done other left =>
    rw [followedBy_of_done found] at replied
    cases replied
    rw [rest_of_done found]
  | abort fault left =>
    rw [followedBy_of_abort found] at replied
    cases replied

theorem followedBy_mk_append (early : List Report) (o : Outcome α) :
    (⟨early ++ o.reports, o.reply⟩ : Outcome α).followedBy tail =
      ⟨early.map (Report.followedBy tail) ++ (o.followedBy tail).reports,
        (o.followedBy tail).reply⟩ := by
  cases replied : o.reply with
  | done value rest =>
    rw [followedBy_of_done replied]
    simp only [followedBy, List.map_append]
  | abort fault rest =>
    rw [followedBy_of_abort replied]
    simp only [followedBy, List.map_append]

/-- A tail that is left behind the first part is left behind the second. -/
theorem bind_followedBy {o : Outcome α} {next other : α → List Token → Outcome β}
    (further : ∀ value rest, o.reply = .done value rest →
      other value (rest ++ tail) = (next value rest).followedBy tail) :
    (o.followedBy tail).bind other = (o.bind next).followedBy tail := by
  cases replied : o.reply with
  | abort fault rest =>
    rw [followedBy_of_abort replied, bind_of_abort replied]
    rfl
  | done value rest =>
    rw [followedBy_of_done replied, bind_of_done rfl, further value rest replied,
      bind_of_done replied, followedBy_mk_append]

end Outcome

namespace Parser

variable {α β : Type} {tail : List Token}

theorem Endless.of_suffix {ts us : List Token} (endless : Endless ts) (suffix : us <:+ ts) :
    Endless us :=
  fun t mem => endless t (suffix.subset mem)

theorem Endless.cons {t : Token} {ts : List Token} (endless : Endless (t :: ts)) : Endless ts :=
  endless.of_suffix (List.suffix_cons t ts)

theorem Endless.of_done {p : Parser α} (shrinks : p.Shrinks) {us rest : List Token}
    (endless : Endless us) {value : α} (replied : (p us).reply = .done value rest) :
    Endless rest := by
  have suffix := shrinks us
  rw [Outcome.rest_of_done replied] at suffix
  exact endless.of_suffix suffix

theorem isNext_append_of_ended (ended : IsTail tail) {kind : Kind} (other : kind ≠ .endOfFile)
    (us : List Token) : isNext kind (us ++ tail) = isNext kind us := by
  cases us with
  | cons t us => rfl
  | nil =>
    cases tail with
    | nil => rfl
    | cons e others =>
      simp only [List.nil_append, isNext, ended e others rfl, beq_eq_false_iff_ne]
      exact other.symm

/-- Before a tail the parser does what it does with the tokens alone, and leaves the tail. -/
def Ends (p : Parser α) : Prop :=
  ∀ us tail, Endless us → IsTail tail → p (us ++ tail) = (p us).followedBy tail

theorem ends_pure (value : α) : (pure value : Parser α).Ends := fun _ _ _ _ => rfl

theorem ends_abort (fault : SyntaxFault) : (abort fault : Parser α).Ends := fun _ _ _ _ => rfl

theorem ends_reportAt (token : Token) (fault : SyntaxFault) : (reportAt token fault).Ends :=
  fun _ _ _ _ => rfl

theorem ends_reportHere (fault : SyntaxFault) : (reportHere fault).Ends := by
  intro us tail _ _
  cases us <;> rfl

theorem ends_onlyIf {condition : Bool} {p : Parser Unit} (ends : p.Ends) :
    (onlyIf condition p).Ends := by
  cases condition with
  | true => exact ends
  | false => exact ends_pure ()

/-- A parser by the first token leaves a tail that begins with an ending token as it leaves the
end. -/
theorem ends_of_cons {p : Parser α}
    (none : ∀ e others, e.kind = .endOfFile → p (e :: others) = (p []).followedBy (e :: others))
    (empty : p [] = (p []).followedBy [])
    (first : ∀ t us tail, Endless (t :: us) → IsTail tail →
      p (t :: (us ++ tail)) = (p (t :: us)).followedBy tail) :
    p.Ends := by
  intro us tail endless ended
  cases us with
  | cons t us => exact first t us tail endless ended
  | nil =>
    cases tail with
    | nil => exact empty
    | cons e others => exact none e others (ended e others rfl)

theorem ends_require (requirement : Requirement) : (require requirement).Ends := by
  refine ends_of_cons (fun e others ending => ?_) rfl (fun t us tail _ _ => ?_)
  · have other : e.kind ≠ requirement.kind := by
      rw [ending]
      cases requirement <;> exact Kind.noConfusion
    simp only [require, other, ↓reduceIte]
    rfl
  · simp only [require]
    split <;> rfl

namespace Ends

variable {p : Parser α}

theorem bind (ends : p.Ends) (shrinks : p.Shrinks) {next : α → Parser β}
    (further : ∀ value, (next value).Ends) : (p >>= next).Ends := by
  intro us tail endless ended
  rw [bind_apply, bind_apply, ends us tail endless ended]
  exact Outcome.bind_followedBy fun value rest replied =>
    further value rest tail (endless.of_done shrinks replied) ended

theorem map (ends : p.Ends) (f : α → β) : (f <$> p).Ends := by
  intro us tail endless ended
  rw [map_apply, map_apply, ends us tail endless ended]
  exact Outcome.bind_followedBy fun value rest _ => rfl

theorem unlessNext (ends : p.Ends) {kind : Kind} (other : kind ≠ .endOfFile) :
    (unlessNext kind p).Ends := by
  intro us tail endless ended
  simp only [Parser.unlessNext, isNext_append_of_ended ended other]
  split
  · rfl
  · exact ends.map some us tail endless ended

theorem ifNext (ends : p.Ends) {kind : Kind} (other : kind ≠ .endOfFile) :
    (ifNext kind p).Ends := by
  refine ends_of_cons (fun e others ending => ?_) rfl (fun t us tail endless ended => ?_)
  · simp only [Parser.ifNext, ending, other.symm, ↓reduceIte]
    rfl
  · simp only [Parser.ifNext]
    split
    · exact ends.map some us tail endless.cons ended
    · rfl

end Ends

/-- Before a tail a step does what it does with the tokens alone, and it does not begin at the
tail. -/
def StepEnds (step? : List Token → Option (Outcome α)) : Prop :=
  ∀ us tail, Endless us → IsTail tail → step? (us ++ tail) = (step? us).map (·.followedBy tail)

theorem stepEnds_of_cons {step? : List Token → Option (Outcome α)} (empty : step? [] = none)
    (ending : ∀ e others, e.kind = .endOfFile → step? (e :: others) = none)
    (first : ∀ t us tail, Endless us → IsTail tail →
      step? (t :: (us ++ tail)) = (step? (t :: us)).map (·.followedBy tail)) :
    StepEnds step? := by
  intro us tail endless ended
  cases us with
  | cons t us => exact first t us tail endless.cons ended
  | nil =>
    rw [empty, Option.map_none, List.nil_append]
    cases tail with
    | nil => exact empty
    | cons e others => exact ending e others (ended e others rfl)

theorem ends_chain {step? : α → List Token → Option (Outcome α)}
    (steps : ∀ value, StepEnds (step? value))
    (shrinks : ∀ value us o, step? value us = some o → o.rest <:+ us) (budget : Nat) (value : α) :
    (chain step? budget value).Ends := by
  induction budget generalizing value with
  | zero => exact ends_pure value
  | succ budget ih =>
    intro us tail endless ended
    simp only [chain, steps value us tail endless ended]
    cases found : step? value us with
    | none => rfl
    | some o =>
      refine Outcome.bind_followedBy fun value' rest replied => ?_
      have suffix := shrinks value us o found
      rw [Outcome.rest_of_done replied] at suffix
      exact ih value' rest tail (endless.of_suffix suffix) ended

theorem ends_many {step? : Nat → List Token → Option (Outcome α)}
    (steps : ∀ count, StepEnds (step? count))
    (shrinks : ∀ count us o, step? count us = some o → o.rest <:+ us) (budget count : Nat) :
    (many step? budget count).Ends := by
  induction budget generalizing count with
  | zero => exact ends_pure []
  | succ budget ih =>
    intro us tail endless ended
    simp only [many, steps count us tail endless ended]
    cases found : step? count us with
    | none => rfl
    | some o =>
      refine Outcome.bind_followedBy fun value rest replied => ?_
      have suffix := shrinks count us o found
      rw [Outcome.rest_of_done replied] at suffix
      exact (ih (count + 1)).map (value :: ·) rest tail (endless.of_suffix suffix) ended

theorem ends_separated {item : Nat → Parser α} (items : ∀ count, (item count).Ends)
    (shrinks : ∀ count, (item count).Shrinks) (budget : Nat) : (separated item budget).Ends := by
  have steps : ∀ count, StepEnds (afterComma? item count) := by
    intro count
    refine stepEnds_of_cons rfl (fun e others ending => ?_) (fun t us tail endless ended => ?_)
    · simp [afterComma?, ending]
    · simp only [afterComma?, items count us tail endless ended]
      split <;> rfl
  have collected :=
    ends_many steps (fun _ _ _ found => (afterComma?_consumes shrinks found).rest_suffix) budget 1
  intro us tail endless ended
  simp only [separated,
    isNext_append_of_ended ended (show Kind.rightParen ≠ .endOfFile from Kind.noConfusion),
    items 0 us tail endless ended]
  split
  · rfl
  · exact Outcome.bind_followedBy fun value rest replied =>
      collected.map (value :: ·) rest tail (endless.of_done (shrinks 0) replied) ended

end Parser

/-! ## Expressions -/

namespace Grammar

section Expression

variable {nested : Parser Expr} (ends : nested.Ends) (shrinks : nested.Shrinks)

include ends shrinks

theorem groupingRest_ends : (groupingRest nested).Ends :=
  ends.bind shrinks fun inner => (ends_require _).bind (shrinks_require _) fun _ =>
    ends_pure (Expr.grouping inner)

theorem primary_ends : (primary nested).Ends := by
  refine ends_of_cons (fun e others ending => ?_) rfl (fun t us tail endless ended => ?_)
  · simp only [primary, ending]
    rfl
  · simp only [primary]
    generalize t.kind = kind
    cases kind with
    | leftParen => exact groupingRest_ends ends shrinks us tail endless.cons ended
    | _ => rfl

omit shrinks in
theorem argument_ends (count : Nat) : (argument nested count).Ends :=
  (ends_onlyIf (ends_reportHere _)).bind (shrinks_onlyIf (shrinks_reportHere _)) fun _ => ends

theorem callRest_ends (budget : Nat) (callee : Expr) : (callRest budget nested callee).Ends := by
  have items := ends_separated (argument_ends ends) (argument_shrinks shrinks) budget
  refine items.bind (shrinks_separated (argument_shrinks shrinks) budget) fun arguments => ?_
  exact (ends_require _).bind (shrinks_require _) fun paren =>
    ends_pure (Expr.call callee paren arguments)

theorem call_ends (budget : Nat) : (call budget nested).Ends := by
  have steps : ∀ callee, StepEnds (call? budget nested callee) := by
    intro callee
    refine stepEnds_of_cons rfl (fun e others ending => ?_) (fun t us tail endless ended => ?_)
    · simp [call?, ending]
    · simp only [call?, callRest_ends ends shrinks budget callee us tail endless ended]
      split <;> rfl
  refine (primary_ends ends shrinks).bind (primary_consumes shrinks).shrinks fun callee => ?_
  exact ends_chain steps
    (fun _ _ _ found => (call?_consumes shrinks found).rest_suffix) budget callee

theorem unary_ends (budget : Nat) : (unary budget nested).Ends := by
  intro us tail endless ended
  have operand := call_ends ends shrinks budget
  induction us with
  | nil =>
    cases tail with
    | nil => exact operand [] [] endless ended
    | cons e others =>
      have none : UnaryOp.ofKind? e.kind = none := by
        rw [ended e others rfl]
        rfl
      simp only [List.nil_append, unary, none]
      exact operand [] (e :: others) endless ended
  | cons t us ih =>
    simp only [List.cons_append, unary]
    cases UnaryOp.ofKind? t.kind with
    | none => exact operand (t :: us) tail endless ended
    | some op =>
      simp only [ih endless.cons]
      exact Outcome.bind_followedBy fun _ _ _ => rfl

theorem operations_ends (budget rank : Nat) : (operations budget nested rank).Ends := by
  induction rank with
  | zero => exact unary_ends ends shrinks budget
  | succ rank ih =>
    have steps : ∀ left, StepEnds (operation? (rank + 1) (operations budget nested rank) left) := by
      intro left
      refine stepEnds_of_cons rfl (fun e others ending => ?_) (fun t us tail endless ended => ?_)
      · simp [operation?, ending, Operator.ofKind?]
      · simp only [operation?]
        cases Operator.ofKind? t.kind with
        | none => rfl
        | some op =>
          have operated := ih.map (Expr.operation left op t.toLexeme) us tail endless ended
          simp only [map_apply] at operated
          simp only [operated]
          split <;> rfl
    have consumes := operations_consumes shrinks budget rank
    refine ih.bind consumes.shrinks fun left => ?_
    exact ends_chain steps
      (fun _ _ _ found => (operation?_consumes consumes found).rest_suffix) budget left

theorem assignmentRest_ends (target : Expr) : (assignmentRest nested target).Ends := by
  refine ends_of_cons (fun e others ending => ?_) rfl (fun t us tail endless ended => ?_)
  · simp [assignmentRest, ending, Outcome.followedBy_done]
  · have assigned : (nested >>= assignTo target t).Ends := by
      refine ends.bind shrinks fun value => ?_
      cases target with
      | «variable» name => exact ends_pure (Expr.assign name value)
      | _ => exact (ends_reportAt t _).bind (shrinks_reportAt t _) fun _ => ends_pure _
    simp only [assignmentRest]
    split
    · exact assigned us tail endless.cons ended
    · rfl

theorem assignment_ends (budget : Nat) : (assignment budget nested).Ends :=
  (operations_ends ends shrinks budget _).bind (operations_consumes shrinks budget _).shrinks
    (assignmentRest_ends ends shrinks)

end Expression

theorem expression_ends (budget : Nat) : (expression budget).Ends := by
  induction budget with
  | zero => exact ends_abort _
  | succ budget ih => exact assignment_ends ih (expression_consumes budget).shrinks budget

/-- Every rule for expressions leaves a tail alone. -/
theorem parserAt_ends (budget : Nat) (level : Level) : (parserAt budget level).Ends := by
  have ends := expression_ends budget
  have shrinks := (expression_consumes budget).shrinks
  cases level with
  | assignment => exact assignment_ends ends shrinks budget
  | call => exact call_ends ends shrinks budget
  | primary => exact primary_ends ends shrinks
  | _ => exact operations_ends ends shrinks budget _

/-! ## Statements without a nested one -/

section Statement

variable {expression : Parser Expr} (ends : expression.Ends) (shrinks : expression.Shrinks)

theorem require_pure_ends (requirement : Requirement) (tree : Stmt) :
    (do let _ ← require requirement; return tree : Parser Stmt).Ends :=
  (ends_require requirement).bind (shrinks_require requirement) fun _ => ends_pure tree

theorem parameter_ends (count : Nat) : (parameter count).Ends :=
  (ends_onlyIf (ends_reportHere _)).bind (shrinks_onlyIf (shrinks_reportHere _)) fun _ =>
    ends_require _

theorem breakStatement_ends (context : Context) (keyword : Token) :
    (breakStatement context keyword).Ends :=
  (ends_onlyIf (ends_reportAt keyword _)).bind
    (shrinks_onlyIf (shrinks_reportAt keyword _)) fun _ =>
    require_pure_ends _ _

include ends shrinks

theorem variableDeclaration_ends : (variableDeclaration expression).Ends := by
  refine (ends_require _).bind (shrinks_require _) fun name => ?_
  refine (ends.ifNext Kind.noConfusion).bind (shrinks_ifNext _ shrinks) fun initializer => ?_
  exact require_pure_ends _ _

theorem expressionStatement_ends : (expressionStatement expression).Ends :=
  ends.bind shrinks fun _ => require_pure_ends _ _

theorem printStatement_ends : (printStatement expression).Ends :=
  ends.bind shrinks fun _ => require_pure_ends _ _

theorem returnStatement_ends (context : Context) (keyword : Token) :
    (returnStatement context expression keyword).Ends := by
  refine (ends_onlyIf (ends_reportAt keyword _)).bind
    (shrinks_onlyIf (shrinks_reportAt keyword _)) fun _ => ?_
  refine (ends.unlessNext Kind.noConfusion).bind (shrinks_unlessNext _ shrinks) fun value => ?_
  exact require_pure_ends _ _

theorem forInitializer_ends : (forInitializer expression).Ends := by
  have plain := (expressionStatement_ends ends shrinks).map some
  have declared := (variableDeclaration_ends ends shrinks).map some
  refine ends_of_cons (fun e others ending => ?_) ?_ (fun t us tail endless ended => ?_)
  · simp only [forInitializer, ending]
    exact plain [] (e :: others) endless_nil fun _ _ same => by
      cases same
      exact ending
  · exact plain [] [] endless_nil fun _ _ same => by cases same
  · simp only [forInitializer]
    split
    · rfl
    · exact declared us tail endless.cons ended
    · exact plain (t :: us) tail endless ended

end Statement

end Grammar

end Lox
