import Lox.Grammar.Program
import Lox.Proofs.Grammar.Statement

/-!
# Parsing programs is deriving programs

`parse` returns statements and no errors exactly if the tokens up to the ending token derive these
statements (`parse_eq_iff_program`).  What is left to show here, beyond single statements, is that
the loop over the declarations of a program ends in no other way than at the end of the tokens: a
fault in a declaration is always reported, and every declaration takes a token.
-/

namespace Lox.Grammar

open Lox.Parser

/-- A step of the loop over the declarations of a program. -/
def programStep? (statement : Parser Stmt) (_count : Nat) (ts : List Token) :
    Option (Outcome (Option Stmt)) :=
  if ts.isEmpty then none else some (recovering statement ts)

theorem declarations_eq (ts : List Token) :
    declarations ts = many (programStep? (statement ts.length .declaration .top)) ts.length 0 ts :=
  rfl

/-! ## The loop ends at the end -/

theorem recovering_reply_ne_abort {statement : Parser Stmt} {ts rest : List Token}
    {fault : SyntaxFault} : (recovering statement ts).reply ≠ .abort fault rest := by
  unfold recovering
  dsimp only
  split <;> simp

theorem many_reply_ne_abort {statement : Parser Stmt} {budget count : Nat} {ts rest : List Token}
    {fault : SyntaxFault} :
    (many (programStep? statement) budget count ts).reply ≠ .abort fault rest := by
  induction budget generalizing count ts fault rest with
  | zero => simp [many, Outcome.done]
  | succ budget ih =>
    by_cases empty : ts.isEmpty
    · rw [many_of_none (by simp [programStep?, empty])]
      simp [Outcome.done]
    · have step : programStep? statement count ts = some (recovering statement ts) := by
        simp [programStep?, empty]
      rw [many_succ step]
      cases reply : (recovering statement ts).reply with
      | abort => exact (recovering_reply_ne_abort reply).elim
      | done tree? middle =>
        simp only [Outcome.bind, reply, Outcome.map]
        cases further : (many (programStep? statement) budget (count + 1) middle).reply with
        | done trees? last => simp [Outcome.done]
        | abort => exact (ih further).elim

/-- A clean loop takes all the tokens if its budget is at least their number. -/
theorem rest_eq_nil_of_many {statement : Parser Stmt} {context : Context}
    (sound : StatementSound .declaration context statement) {budget count : Nat}
    {ts rest : List Token} {trees? : List (Option Stmt)} (enough : ts.length ≤ budget)
    (clean : many (programStep? statement) budget count ts = .done trees? rest) : rest = [] := by
  induction budget generalizing count ts trees? with
  | zero =>
    rw [List.eq_nil_of_length_eq_zero (Nat.le_zero.mp enough)] at clean
    exact (Outcome.done_eq_done_iff.mp clean).2.symm
  | succ budget ih =>
    cases ts with
    | nil =>
      rw [many_of_none (by simp [programStep?])] at clean
      exact (Outcome.done_eq_done_iff.mp clean).2.symm
    | cons t ts =>
      have step :
          programStep? statement count (t :: ts) = some (recovering statement (t :: ts)) := by
        simp [programStep?]
      simp only [many_succ step, Outcome.bind_eq_done_iff, Outcome.map_eq_done_iff] at clean
      obtain ⟨tree?, middle, recovered, trees?, more, rfl⟩ := clean
      obtain ⟨tree, found, rfl⟩ := recovering_eq_done_iff.mp recovered
      obtain ⟨us, dangling, same, derives, -⟩ := sound _ _ _ found
      obtain ⟨_, vs, rfl, -⟩ := Clause.Derives.exists_declaration_head derives
      refine ih ?_ more
      have length := congrArg List.length same
      simp only [List.length_append, List.length_cons] at length enough
      omega

/-! ## Programs -/

theorem program_of_declarations {ts rest : List Token} {trees? : List (Option Stmt)}
    (clean : declarations ts = .done trees? rest) : program ts = (trees?.filterMap id, []) := by
  simp [program, clean, Outcome.done]

theorem program_eq_iff {ts : List Token} {trees : List Stmt} :
    program ts = (trees, []) ↔ Program trees ts := by
  constructor
  · intro clean
    simp only [program] at clean
    split at clean
    case h_1 trees? rest reply =>
      obtain ⟨rfl, reports⟩ := Prod.mk.inj clean
      have found : declarations ts = .done trees? rest := by
        rw [Outcome.done, ← reports, ← reply]
      have sound := statement_sound ts.length .declaration .top
      obtain rfl := rest_eq_nil_of_many sound (Nat.le_refl _) found
      have recovers : ∀ count us o, programStep? (statement ts.length .declaration .top) count us =
          some o → o = recovering (statement ts.length .declaration .top) us := by
        intro count us o step
        unfold programStep? at step
        split at step
        · contradiction
        · exact (Option.some.inj step).symm
      obtain ⟨us, same, derives⟩ := declarations_sound sound recovers found
      rw [List.append_nil] at same
      exact same ▸ derives
    case h_2 reply => exact (many_reply_ne_abort reply).elim
  · intro derives
    have pieces := Clause.Derives.found derives ts.length (Nat.le_refl _) 0
    have found :
        many (programStep? (statement ts.length .declaration .top)) ts.length 0 (ts ++ []) =
        .done (trees.map some) [] := by
      refine declarations_complete ?_ pieces (Nat.le_refl _) rfl fun _ => rfl
      exact fun _ _ _ _ => rfl
    rw [List.append_nil, ← declarations_eq] at found
    simpa [List.filterMap_map] using program_of_declarations found

end Lox.Grammar

namespace Lox

open Grammar

theorem parse_eq_iff {ts : List Token} {trees : List Stmt} :
    parse ts = (trees, []) ↔ program (Grammar.body ts) = (trees, []) := by
  simp only [parse]
  obtain ⟨statements, reports⟩ := program (Grammar.body ts)
  simp

/-- The parser accepts exactly the programs of the grammar, and builds their trees. -/
theorem parse_eq_iff_program (ts : List Token) (trees : List Stmt) :
    parse ts = (trees, []) ↔ Program trees (ts.takeWhile (·.kind != .endOfFile)) := by
  rw [parse_eq_iff, program_eq_iff]
  rfl

end Lox
