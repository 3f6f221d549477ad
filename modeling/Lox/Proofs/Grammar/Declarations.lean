import Lox.Proofs.Grammar.Program
import Lox.Proofs.Grammar.Reading

/-!
# The declarations of a program, one after another

`program_step` is one step of the loop over the declarations: a declaration takes at least one
token, and the program is what came of it and then the program of the tokens behind it.  The loop
ends where the tokens end, and it looks one token ahead as everything in it does.

The reports of a program name a token or the end.  `parse` puts the ending token in the place of the
end, so a report at a token reads the same whatever follows.
-/

namespace Lox

namespace Grammar

open Lox.Parser

/-- A declaration outside of any block, parsed or dropped. -/
def topDeclaration : Parser (Option Stmt) := recovering (ampleStatement .declaration .top)

theorem exists_topDeclaration {ts : List Token} (nonempty : ts ≠ []) :
    ∃ reports tree? taken rest, topDeclaration ts = ⟨reports, .done tree? rest⟩ ∧
      ts = taken ++ rest ∧ taken ≠ [] :=
  recovering_consumes (ampleStatement_takes _ _).consumes nonempty

theorem readsAt_topDeclaration (ts : List Token) : ReadsAt NotElse topDeclaration ts :=
  readsAt_recovering
    ((reads_statement (ts.length + 1) .declaration .top).reading ts (Nat.lt_succ_self _))

/-- The declarations of a program, with a budget that suffices. -/
def ampleDeclarations : Parser (List (Option Stmt)) :=
  manyAll (programStep? (ampleStatement .declaration .top)) 0

theorem programStep?_consumes {statement : Parser Stmt} (consumes : statement.Consumes)
    {count : Nat} {ts : List Token} {o : Outcome (Option Stmt)}
    (found : programStep? statement count ts = some o) : o.Takes (fun _ => True) ts := by
  cases ts with
  | nil => cases found
  | cons t ts =>
    cases found
    exact recovering_takes consumes (List.cons_ne_nil t ts)

/-- A budget of at least the number of tokens gives the same declarations. -/
theorem many_programStep?_agree_ample (budget : Nat) :
    Agree budget (many (programStep? (statement budget .declaration .top)) budget 0)
      ampleDeclarations := by
  intro ts within
  have agree := recovering_agree (statement_agree_ample budget .declaration .top)
  have steps : ∀ count us, us.length ≤ ts.length →
      programStep? (statement budget .declaration .top) count us =
      programStep? (ampleStatement .declaration .top) count us := by
    intro count us less
    simp only [programStep?, agree us (Nat.le_trans less within)]
  exact Agree.many steps (fun _ => rfl)
    (fun _ _ _ found => programStep?_consumes (statement_takes _ _ _).consumes found) within
      (Nat.le_refl _) 0 ts
    (Nat.le_refl _)

theorem declarations_eq_ample (ts : List Token) : declarations ts = ampleDeclarations ts := by
  rw [declarations_eq]
  exact many_programStep?_agree_ample ts.length ts (Nat.le_refl _)

/-- The number of declarations before does not matter. -/
theorem many_programStep? (statement : Parser Stmt) (budget count : Nat) (ts : List Token) :
    many (programStep? statement) budget count ts = many (programStep? statement) budget 0 ts := by
  induction budget generalizing count ts with
  | zero => rfl
  | succ budget ih =>
    cases ts with
    | nil => rfl
    | cons t ts =>
      have step : ∀ count, programStep? statement count (t :: ts) =
          some (recovering statement (t :: ts)) :=
        fun _ => rfl
      rw [many_succ (step count), many_succ (step 0)]
      refine Outcome.bind_congr fun tree? rest _ => ?_
      exact congrArg (Outcome.map (tree? :: ·)) ((ih (count + 1) rest).trans (ih 1 rest).symm)

theorem ampleDeclarations_cons {ts rest : List Token} {reports : List Report} {tree? : Option Stmt}
    (nonempty : ts ≠ []) (step : topDeclaration ts = ⟨reports, .done tree? rest⟩)
    {more : List Report} {trees : List (Option Stmt)} {last : List Token}
    (further : ampleDeclarations rest = ⟨more, .done trees last⟩) :
    ampleDeclarations ts = ⟨reports ++ more, .done (tree? :: trees) last⟩ := by
  have found : programStep? (ampleStatement .declaration .top) 0 ts = some (topDeclaration ts) := by
    cases ts with
    | nil => exact absurd rfl nonempty
    | cons t ts => rfl
  have consumes : ∀ count us o, programStep? (ampleStatement .declaration .top) count us = some o →
      o.Takes (fun _ => True) us :=
        fun _ _ _ found => programStep?_consumes (ampleStatement_takes _ _).consumes found
  have same : manyAll (programStep? (ampleStatement .declaration .top)) 1 rest =
      ⟨more, .done trees last⟩ :=
    (many_programStep? _ rest.length 1 rest).trans further
  have collected :
      ((tree? :: ·) <$> manyAll (programStep? (ampleStatement .declaration .top)) 1) rest =
      ⟨more, .done (tree? :: trees) last⟩ := by
    rw [map_apply, same]
    simp only [Outcome.map, Outcome.bind, Outcome.done, List.append_nil]
  have replied : (topDeclaration ts).reply = .done tree? rest := by rw [step]
  refine (manyAll_of_some (fun _ => rfl) consumes found).trans
    ((Outcome.bind_of_done replied _).trans ?_)
  rw [collected, step]

/-- The loop over the declarations ends at the end of the tokens. -/
theorem exists_ampleDeclarations (ts : List Token) :
    ∃ reports trees, ampleDeclarations ts = ⟨reports, .done trees []⟩ := by
  induction size : ts.length using Nat.strongRecOn generalizing ts with
  | ind size ih =>
    cases ts with
    | nil => exact ⟨[], [], rfl⟩
    | cons t ts =>
      obtain ⟨reports, tree?, taken, rest, step, split, some⟩ :=
        exists_topDeclaration (List.cons_ne_nil t ts)
      have lengths := congrArg List.length split
      have positive := List.length_pos_iff.mpr some
      rw [List.length_append] at lengths
      obtain ⟨more, trees, further⟩ := ih rest.length (by omega) rest rfl
      exact ⟨reports ++ more, tree? :: trees,
        ampleDeclarations_cons (List.cons_ne_nil t ts) step further⟩

theorem program_of_ample {ts rest : List Token} {reports : List Report} {trees : List (Option Stmt)}
    (found : ampleDeclarations ts = ⟨reports, .done trees rest⟩) :
    program ts = (trees.filterMap id, reports) := by
  simp only [program, declarations_eq_ample, found]

theorem program_nil : program [] = ([], []) := rfl

/-- A program is its first declaration, and then the program behind it. -/
theorem program_step {ts rest : List Token} {reports : List Report} {tree? : Option Stmt}
    (nonempty : ts ≠ []) (step : topDeclaration ts = ⟨reports, .done tree? rest⟩) :
    program ts = (tree?.toList ++ (program rest).1, reports ++ (program rest).2) := by
  obtain ⟨more, trees, further⟩ := exists_ampleDeclarations rest
  rw [program_of_ample (ampleDeclarations_cons nonempty step further), program_of_ample further]
  cases tree? <;> rfl

/-- The declarations of a program look one token ahead, and nothing may follow them. -/
theorem reads_declarations (bound : Nat) : Reads bound (· = []) (· = []) ampleDeclarations := by
  refine reads_manyAll (fun _ => false) (fun _ => topDeclaration) (fun _ => rfl) (fun _ _ _ => rfl)
    (fun _ t ws => recovering_takes (ampleStatement_takes _ _).consumes (List.cons_ne_nil t ws))
    (fun _ t ws _ => readsAt_topDeclaration (t :: ws)) (fun others none => ?_)
      (fun t others none => ?_) 0
  · rw [none]
    rfl
  · cases none

/-! ## The tokens up to the ending token -/

theorem body_append {ts : List Token} (endless : ∀ t ∈ ts, t.kind ≠ .endOfFile) (us : List Token) :
    body (ts ++ us) = ts ++ body us := by
  refine List.takeWhile_append_of_pos fun t mem => ?_
  rw [Token.isEnding, Bool.not_eq_true', beq_eq_false_iff_ne]
  exact endless t mem

theorem body_eq_self {ts : List Token} (endless : ∀ t ∈ ts, t.kind ≠ .endOfFile) :
    body ts = ts := by
  have same := body_append endless []
  rw [List.append_nil] at same
  exact same.trans (List.append_nil ts)

theorem find?_isEnding_eq_none {ts : List Token} (endless : ∀ t ∈ ts, t.kind ≠ .endOfFile) :
    ts.find? Token.isEnding = none := by
  apply List.find?_eq_none.mpr
  intro t mem
  rw [Token.isEnding, beq_iff_eq]
  exact endless t mem

/-- What stands before the ending token does not change it. -/
theorem ending_append {ts us : List Token} (endless : ∀ t ∈ ts, t.kind ≠ .endOfFile)
    (nonempty : us ≠ []) : ending (ts ++ us) = ending us := by
  rw [ending, ending, List.find?_append, find?_isEnding_eq_none endless, Option.none_or,
    List.getLast?_append_of_ne_nil ts nonempty]

theorem endless_body (ts : List Token) : Endless (body ts) := by
  intro t mem
  have kept := List.mem_takeWhile_imp mem
  rw [Token.isEnding, Bool.not_eq_true', beq_eq_false_iff_ne] at kept
  exact kept

/-- Tokens are their body and nothing else, or their ending token follows it. -/
theorem exists_body_split (ts : List Token) :
    ts = body ts ∨ ∃ others, ts = body ts ++ ending ts :: others ∧ (ending ts).isEnding = true := by
  have split : body ts ++ ts.dropWhile (!·.isEnding) = ts := List.takeWhile_append_dropWhile
  cases tail : ts.dropWhile (!·.isEnding) with
  | nil =>
    rw [tail, List.append_nil] at split
    exact .inl split.symm
  | cons e others =>
    have ends : e.isEnding = true := by
      have stopped := List.head_dropWhile_not (l := ts) (p := (!·.isEnding)) (by
        rw [tail]
        exact List.cons_ne_nil e others)
      simp only [tail, List.head_cons, Bool.not_eq_false'] at stopped
      exact stopped
    have same : ending ts = e := by
      rw [← split, tail, ending_append (endless_body ts) (List.cons_ne_nil e others), ending,
        List.find?_cons_of_pos ends]
      rfl
    rw [tail] at split
    exact .inr ⟨others, by rw [same, split], by rw [same]; exact ends⟩

/-- The token behind the body is the ending token, or there is none and it is understood. -/
theorem getElem?_body_length (ts : List Token) :
    ts[(body ts).length]?.getD (ending ts) = ending ts := by
  rcases exists_body_split ts with same | ⟨others, split, -⟩
  · rw [List.getElem?_eq_none (by rw [← same])]
    rfl
  · have found : ts[(body ts).length]? = (body ts ++ ending ts :: others)[(body ts).length]? :=
      congrArg (fun us : List Token => us[(body ts).length]?) split
    rw [found, List.getElem?_append_right (Nat.le_refl _), Nat.sub_self]
    rfl

end Grammar

/-! ## From reports to diagnostics -/

/-- A report at a token reads the same whatever the ending token is. -/
theorem Report.diagnostic_of_placed {r : Report} (placed : r.token?.isSome = true)
    (ending other : Token) : r.diagnostic ending = r.diagnostic other := by
  obtain ⟨t, found⟩ := Option.isSome_iff_exists.mp placed
  simp only [Report.diagnostic, found, Option.getD_some]

theorem map_diagnostic_of_placed {reports : List Report}
    (placed : ∀ r ∈ reports, r.token?.isSome = true) (ending other : Token) :
    reports.map (Report.diagnostic ending) = reports.map (Report.diagnostic other) :=
  List.map_congr_left fun r mem => Report.diagnostic_of_placed (placed r mem) ending other

theorem parse_eq (ts : List Token) :
    parse ts = ((Grammar.program (Grammar.body ts)).1,
      (Grammar.program (Grammar.body ts)).2.map (Report.diagnostic (Grammar.ending ts))) := rfl

/-- A program whose reports are all at tokens, and then another one. -/
theorem parse_append_of_program {ts us : List Token} {trees : List Stmt} {reports : List Report}
    (endless : ∀ t ∈ ts, t.kind ≠ .endOfFile) (placed : ∀ r ∈ reports, r.token?.isSome = true)
    (whole : Grammar.program (ts ++ Grammar.body us) =
      (trees ++ (Grammar.program (Grammar.body us)).1,
        reports ++ (Grammar.program (Grammar.body us)).2))
    (ending : Token) :
    parse (ts ++ us) =
      (trees ++ (parse us).1, reports.map (Report.diagnostic ending) ++ (parse us).2) := by
  rw [parse_eq, Grammar.body_append endless, whole, parse_eq, List.map_append]
  rw [map_diagnostic_of_placed placed (Grammar.ending (ts ++ us)) ending]
  cases us with
  | nil => rfl
  | cons u us => rw [Grammar.ending_append endless (List.cons_ne_nil u us)]

end Lox
