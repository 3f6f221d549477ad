import Lox.Proofs.Grammar.Derivation

/-!
# Clean outcomes

An outcome is *clean* if it is `Outcome.done value rest`: the parser finished with a value and
reported nothing on the way.  For each combinator this module says when its outcome is clean, in
terms of clean outcomes of its parts, so that no later proof looks into how reports are collected.

The two loops get a relation of their own.  `Parser.Steps` is a number of clean steps of
`Parser.chain`, one after the other; `Parser.Pieces` cuts the tokens that `Parser.many` takes into
the pieces of its values.
-/

namespace Lox

namespace Outcome

variable {α β : Type}

@[simp]
theorem done_eq_done_iff {value first : α} {rest middle : List Token} :
    (done value rest = done first middle) ↔ value = first ∧ rest = middle := by
  simp [done]

@[simp]
theorem abort_ne_done {fault : SyntaxFault} {value : α} {rest middle : List Token} :
    (abort fault rest : Outcome α) ≠ done value middle := by
  simp [abort, done]

@[simp]
theorem reporting_ne_done {token? : Option Token} {fault : SyntaxFault} {o : Outcome α} {value : α}
    {rest : List Token} : o.reporting token? fault ≠ done value rest := by
  simp [reporting, done]

/-- A sequence is clean if both of its parts are. -/
theorem bind_eq_done_iff {o : Outcome α} {next : α → List Token → Outcome β} {value : β}
    {rest : List Token} :
    o.bind next = done value rest ↔
      ∃ first middle, o = done first middle ∧ next first middle = done value rest := by
  constructor
  · intro clean
    obtain ⟨reports, reply⟩ := o
    cases reply with
    | abort fault middle => simp [bind, done] at clean
    | done first middle =>
      simp only [bind, done, mk.injEq, List.append_eq_nil_iff] at clean
      obtain ⟨⟨rfl, reports⟩, reply⟩ := clean
      refine ⟨first, middle, rfl, ?_⟩
      rw [done, ← reports, ← reply]
  · rintro ⟨first, middle, rfl, clean⟩
    rw [done_bind, clean]

theorem map_eq_done_iff {o : Outcome α} {f : α → β} {value : β} {rest : List Token} :
    o.map f = done value rest ↔ ∃ first, o = done first rest ∧ f first = value := by
  simp only [map, bind_eq_done_iff, done_eq_done_iff]
  constructor
  · rintro ⟨first, middle, clean, rfl, rfl⟩
    exact ⟨first, clean, rfl⟩
  · rintro ⟨first, clean, rfl⟩
    exact ⟨first, rest, clean, rfl, rfl⟩

@[simp]
theorem map_done {f : α → β} {value : α} {rest : List Token} :
    (done value rest).map f = done (f value) rest := by
  simp [map]

end Outcome

namespace Parser

open Grammar

variable {α β : Type}

theorem bind_eq_done_iff {p : Parser α} {next : α → Parser β} {ts rest : List Token} {value : β} :
    (p >>= next) ts = .done value rest ↔
      ∃ first middle, p ts = .done first middle ∧ next first middle = .done value rest :=
  Outcome.bind_eq_done_iff

theorem map_eq_done_iff {p : Parser α} {f : α → β} {ts rest : List Token} {value : β} :
    (f <$> p) ts = .done value rest ↔ ∃ first, p ts = .done first rest ∧ f first = value :=
  Outcome.map_eq_done_iff

/-- What the parser finds cleanly is what the tokens that it takes are. -/
def Sound (p : Parser α) (Derived : α → List Token → Prop) : Prop :=
  ∀ ts value rest, p ts = .done value rest → ∃ us, ts = us ++ rest ∧ Derived value us

theorem Sound.split {p : Parser α} {Derived : α → List Token → Prop} (sound : p.Sound Derived)
    {ts rest : List Token} {value : α} (clean : p ts = .done value rest) :
    ∃ us, ts = us ++ rest ∧ Derived value us :=
  sound ts value rest clean

/-! ## Single tokens -/

@[simp]
theorem isNext_nil {kind : Kind} : isNext kind [] = false := rfl

@[simp]
theorem isNext_cons {kind : Kind} {t : Token} {ts : List Token} :
    isNext kind (t :: ts) = true ↔ t.kind = kind := by
  simp [isNext]

theorem require_eq_done_iff {requirement : Requirement} {ts rest : List Token} {lexeme : Lexeme} :
    require requirement ts = .done lexeme rest ↔
      ∃ word : Word requirement.kind, ts = word.token :: rest ∧ word.lexeme = lexeme := by
  constructor
  · intro clean
    cases ts with
    | nil => simp [require] at clean
    | cons t ts =>
      by_cases kind : t.kind = requirement.kind
      · simp only [require, kind, if_true, Outcome.done_eq_done_iff] at clean
        obtain ⟨rfl, rfl⟩ := clean
        exact ⟨⟨t, kind⟩, rfl, rfl⟩
      · simp [require, kind] at clean
  · rintro ⟨⟨t, kind⟩, rfl, rfl⟩
    simp [require, kind, Word.lexeme]

/-- A check is clean if it finds nothing to report. -/
theorem onlyIf_reportHere_eq_done_iff {condition : Bool} {fault : SyntaxFault}
    {ts rest : List Token} {result : Unit} :
    onlyIf condition (reportHere fault) ts = .done result rest ↔ condition = false ∧ ts = rest := by
  cases condition <;> simp [onlyIf, reportHere]

theorem onlyIf_reportAt_eq_done_iff {condition : Bool} {token : Token} {fault : SyntaxFault}
    {ts rest : List Token} {result : Unit} :
    onlyIf condition (reportAt token fault) ts = .done result rest ↔
      condition = false ∧ ts = rest := by
  cases condition <;> simp [onlyIf, reportAt]

theorem ifNext_eq_done_iff {kind : Kind} {p : Parser α} {ts rest : List Token}
    {value? : Option α} :
    ifNext kind p ts = .done value? rest ↔
      (∃ (word : Word kind) (us : List Token) (value : α),
        ts = word.token :: us ∧ p us = .done value rest ∧ value? = some value) ∨
      (isNext kind ts = false ∧ ts = rest ∧ value? = none) := by
  cases ts with
  | nil => simp [ifNext, eq_comm, and_comm]
  | cons t ts =>
    by_cases is : t.kind = kind
    · simp only [ifNext, is, if_true, map_apply, Outcome.map_eq_done_iff, isNext, beq_self_eq_true,
        Bool.true_eq_false, false_and, or_false]
      constructor
      · rintro ⟨value, clean, rfl⟩
        exact ⟨⟨t, is⟩, ts, value, rfl, clean, rfl⟩
      · rintro ⟨word, us, value, same, clean, rfl⟩
        obtain ⟨-, rfl⟩ := List.cons.inj same
        exact ⟨value, clean, rfl⟩
    · simp only [ifNext, is, if_false, Outcome.done_eq_done_iff, isNext, beq_eq_false_iff_ne, ne_eq,
        not_false_eq_true, true_and]
      constructor
      · rintro ⟨rfl, rfl⟩
        exact .inr ⟨rfl, rfl⟩
      · rintro (⟨word, us, value, same, -⟩ | ⟨rfl, rfl⟩)
        · obtain ⟨rfl, -⟩ := List.cons.inj same
          exact (is word.kind_eq).elim
        · exact ⟨rfl, rfl⟩

theorem unlessNext_eq_done_iff {kind : Kind} {p : Parser α} {ts rest : List Token}
    {value? : Option α} :
    unlessNext kind p ts = .done value? rest ↔
      (isNext kind ts = true ∧ ts = rest ∧ value? = none) ∨
      (isNext kind ts = false ∧ ∃ value, p ts = .done value rest ∧ value? = some value) := by
  cases is : isNext kind ts
  · simp [unlessNext, is, Outcome.map_eq_done_iff, @eq_comm _ (some _)]
  · simp [unlessNext, is, @eq_comm _ none, and_comm]

/-! ## Loops -/

theorem chain_succ {step? : α → List Token → Option (Outcome α)} {budget : Nat} {value : α}
    {ts : List Token} {o : Outcome α} (step : step? value ts = some o) :
    chain step? (budget + 1) value ts = o.bind fun last rest => chain step? budget last rest := by
  simp only [chain, step]

theorem chain_of_none {step? : α → List Token → Option (Outcome α)} {value : α} {ts : List Token}
    (stop : step? value ts = none) (budget : Nat) :
    chain step? budget value ts = .done value ts := by
  cases budget with
  | zero => rfl
  | succ budget => simp only [chain, stop]

theorem many_succ {step? : Nat → List Token → Option (Outcome α)} {budget count : Nat}
    {ts : List Token} {o : Outcome α} (step : step? count ts = some o) :
    many step? (budget + 1) count ts =
      o.bind fun value rest => (many step? budget (count + 1) rest).map (value :: ·) := by
  simp only [many, step]
  rfl

theorem many_of_none {step? : Nat → List Token → Option (Outcome α)} {count : Nat}
    {ts : List Token} (stop : step? count ts = none) (budget : Nat) :
    many step? budget count ts = .done [] ts := by
  cases budget with
  | zero => rfl
  | succ budget => simp only [many, stop]

/-- A number of clean steps of a loop that grows a value. -/
inductive Steps (step? : α → List Token → Option (Outcome α)) :
    Nat → α → List Token → α → List Token → Prop where
  | refl {value : α} {ts : List Token} : Steps step? 0 value ts value ts
  | snoc {count : Nat} {first value last : α} {ts middle rest : List Token} :
    Steps step? count first ts value middle → step? value middle = some (.done last rest) →
    Steps step? (count + 1) first ts last rest

namespace Steps

variable {step? : α → List Token → Option (Outcome α)} {count : Nat} {first value last : α}
  {ts middle rest : List Token}

theorem cons (step : step? first ts = some (.done value middle))
    (steps : Steps step? count value middle last rest) :
    Steps step? (count + 1) first ts last rest := by
  induction steps with
  | refl => exact .snoc .refl step
  | snoc _ lastStep ih => exact .snoc (ih step) lastStep

/-- A loop that takes clean steps goes on with what is left of its budget. -/
theorem chain_eq (steps : Steps step? count first ts last rest) (budget : Nat) :
    chain step? (budget + count) first ts = chain step? budget last rest := by
  induction steps generalizing budget with
  | refl => rfl
  | @snoc count first value last ts middle rest _ step ih =>
    have more := ih (budget + 1)
    rw [Nat.add_right_comm] at more
    rw [← Nat.add_assoc, more]
    rw [chain_succ step, Outcome.done_bind]

end Steps

/-- A clean loop has taken clean steps. -/
theorem exists_steps_of_chain {step? : α → List Token → Option (Outcome α)} {budget : Nat}
    {first last : α} {ts rest : List Token}
    (clean : chain step? budget first ts = .done last rest) :
    ∃ count, Steps step? count first ts last rest := by
  induction budget generalizing first ts with
  | zero =>
    simp only [chain, pure_apply, Outcome.done_eq_done_iff] at clean
    obtain ⟨rfl, rfl⟩ := clean
    exact ⟨0, .refl⟩
  | succ budget ih =>
    cases step : step? first ts with
    | none =>
      rw [chain_of_none step, Outcome.done_eq_done_iff] at clean
      obtain ⟨rfl, rfl⟩ := clean
      exact ⟨0, .refl⟩
    | some o =>
      rw [chain_succ step, Outcome.bind_eq_done_iff] at clean
      obtain ⟨value, middle, rfl, clean⟩ := clean
      obtain ⟨count, steps⟩ := ih clean
      exact ⟨count + 1, steps.cons step⟩

/-- A loop that grows what its operand finds is sound if each of its steps is. -/
theorem Sound.chain {p : Parser α} {Operand Grown : α → List Token → Prop}
    (operand : p.Sound Operand) (start : ∀ value us, Operand value us → Grown value us)
    {step? : α → List Token → Option (Outcome α)}
    (step : ∀ value us ts last rest, Grown value us → step? value ts = some (.done last rest) →
      ∃ vs, ts = vs ++ rest ∧ Grown last (us ++ vs))
    (budget : Nat) : (p >>= chain step? budget).Sound Grown := by
  intro ts last rest clean
  obtain ⟨first, middle, found, looped⟩ := bind_eq_done_iff.mp clean
  obtain ⟨us, rfl, derived⟩ := operand.split found
  obtain ⟨count, steps⟩ := exists_steps_of_chain looped
  suffices grown : ∃ vs, middle = vs ++ rest ∧ Grown last (us ++ vs) by
    obtain ⟨vs, rfl, grown⟩ := grown
    exact ⟨us ++ vs, (List.append_assoc ..).symm, grown⟩
  clear clean looped found
  induction steps with
  | refl => exact ⟨[], rfl, by simpa using start _ _ derived⟩
  | snoc _ lastStep ih =>
    obtain ⟨vs, rfl, grown⟩ := ih derived
    obtain ⟨ws, rfl, grown⟩ := step _ _ _ _ _ grown lastStep
    exact ⟨vs ++ ws, (List.append_assoc ..).symm, by rwa [List.append_assoc] at grown⟩

/-- The tokens are one piece after the other, one for each value.  A piece knows how many values are
before its own. -/
inductive Pieces (Piece : Nat → α → List Token → Prop) : Nat → List α → List Token → Prop where
  | nil {count : Nat} : Pieces Piece count [] []
  | cons {count : Nat} {value : α} {values : List α} {ts us : List Token} :
    Piece count value ts → Pieces Piece (count + 1) values us →
    Pieces Piece count (value :: values) (ts ++ us)

theorem Pieces.length_le_length {Piece : Nat → α → List Token → Prop}
    (nonempty : ∀ count value us, Piece count value us → us ≠ []) {count : Nat} {values : List α}
    {ts : List Token} (pieces : Pieces Piece count values ts) : values.length ≤ ts.length := by
  induction pieces with
  | nil => exact Nat.le_refl 0
  | cons piece _ ih =>
    have := List.length_pos_iff.mpr (nonempty _ _ _ piece)
    simp only [List.length_cons, List.length_append]
    omega

/-- A clean loop that collects values takes a piece for each of them. -/
theorem pieces_of_many {step? : Nat → List Token → Option (Outcome α)}
    {Piece : Nat → α → List Token → Prop}
    (sound : ∀ count ts value rest, step? count ts = some (.done value rest) →
      ∃ us, ts = us ++ rest ∧ Piece count value us)
    {budget count : Nat} {values : List α} {ts rest : List Token}
    (clean : many step? budget count ts = .done values rest) :
    ∃ us, ts = us ++ rest ∧ Pieces Piece count values us := by
  induction budget generalizing count values ts with
  | zero =>
    simp only [many, pure_apply, Outcome.done_eq_done_iff] at clean
    obtain ⟨rfl, rfl⟩ := clean
    exact ⟨[], rfl, .nil⟩
  | succ budget ih =>
    cases step : step? count ts with
    | none =>
      rw [many_of_none step, Outcome.done_eq_done_iff] at clean
      obtain ⟨rfl, rfl⟩ := clean
      exact ⟨[], rfl, .nil⟩
    | some o =>
      simp only [many_succ step, Outcome.bind_eq_done_iff, Outcome.map_eq_done_iff] at clean
      obtain ⟨value, middle, rfl, values, clean, rfl⟩ := clean
      obtain ⟨us, rfl, piece⟩ := sound count ts value middle step
      obtain ⟨vs, rfl, pieces⟩ := ih clean
      exact ⟨us ++ vs, (List.append_assoc ..).symm, .cons piece pieces⟩

/-- A loop that collects values finds the pieces that its step finds, if the step finds a piece
before anything that may follow one, and nothing in the rest. -/
theorem many_of_pieces {step? : Nat → List Token → Option (Outcome α)}
    {Piece : Nat → α → List Token → Prop} (Follows : List Token → Prop)
    (complete : ∀ count value ts rest, Piece count value ts → Follows rest →
      step? count (ts ++ rest) = some (.done value rest))
    (follows : ∀ count value ts rest, Piece count value ts → Follows (ts ++ rest))
    {count : Nat} {values : List α} {ts rest : List Token} (pieces : Pieces Piece count values ts)
    (restFollows : Follows rest) (stop : ∀ count, step? count rest = none) {budget : Nat}
    (enough : values.length ≤ budget) :
    many step? budget count (ts ++ rest) = .done values rest := by
  induction pieces generalizing budget with
  | nil => exact many_of_none (stop _) budget
  | @cons count value values ts us piece pieces ih =>
    obtain ⟨budget, rfl⟩ : ∃ fewer, budget = fewer + 1 :=
      ⟨budget - 1, by rw [List.length_cons] at enough; omega⟩
    have usFollows : Follows (us ++ rest) := by
      cases pieces with
      | nil => exact restFollows
      | cons next _ =>
        rw [List.append_assoc]
        exact follows _ _ _ _ next
    rw [List.append_assoc, many_succ (complete _ _ _ _ piece usFollows), Outcome.done_bind,
      ih (Nat.le_of_succ_le_succ enough), Outcome.map_done]

/-! ## Items separated by commas -/

theorem listed_within {Item : α → List Token → Prop} {values : List α} {ts : List Token}
    (listed : Listed Item values ts) {bound : Nat} (within : ts.length ≤ bound) :
    Listed (fun value us => Item value us ∧ us.length ≤ bound) values ts := by
  induction listed with
  | none => exact .none
  | one item => exact .one ⟨item, within⟩
  | more comma item _ ih =>
    rw [List.length_append, List.length_cons] at within
    exact .more comma ⟨item, by omega⟩ (ih (by omega))

theorem length_le_of_listed {Item : α → List Token → Prop} {values : List α} {ts : List Token}
    (listed : Listed Item values ts) (nonempty : ∀ value us, Item value us → us ≠ []) :
    values.length ≤ ts.length := by
  induction listed with
  | none => exact Nat.le_refl 0
  | one item => exact List.length_pos_iff.mpr (nonempty _ _ item)
  | more comma item _ ih =>
    have := List.length_pos_iff.mpr (nonempty _ _ item)
    simp only [List.length_cons, List.length_append] at ih ⊢
    omega

/-- An item that is one of fewer than `limit`, behind a comma. -/
inductive CommaItem (limit : Nat) (Item : α → List Token → Prop) :
    Nat → α → List Token → Prop where
  | mk (comma : Word .comma) {count : Nat} {value : α} {ts : List Token} :
    count < limit → Item value ts → CommaItem limit Item count value (comma.token :: ts)

theorem afterComma?_eq_some_iff {item : Nat → Parser α} {count : Nat} {ts : List Token}
    {o : Outcome α} :
    afterComma? item count ts = some o ↔
      ∃ (comma : Word .comma) (us : List Token), ts = comma.token :: us ∧ item count us = o := by
  cases ts with
  | nil => simp [afterComma?]
  | cons t ts =>
    constructor
    · intro found
      by_cases is : t.kind = .comma
      · simp only [afterComma?, is, if_true, Option.some.injEq] at found
        exact ⟨⟨t, is⟩, ts, rfl, found⟩
      · simp [afterComma?, is] at found
    · rintro ⟨comma, us, same, rfl⟩
      obtain ⟨rfl, rfl⟩ := List.cons.inj same
      simp [afterComma?, comma.kind_eq]

theorem Pieces.listed {limit count : Nat} {Item : α → List Token → Prop} {values : List α}
    {us : List Token} (pieces : Pieces (CommaItem limit Item) count values us) {first : α}
    {ts : List Token} (item : Item first ts) : Listed Item (first :: values) (ts ++ us) := by
  induction pieces generalizing first ts with
  | nil => simpa using Listed.one item
  | cons piece _ ih =>
    cases piece with
    | mk comma _ next => exact .more comma item (ih next)

theorem Pieces.length_le {limit count : Nat} {Item : α → List Token → Prop} {values : List α}
    {us : List Token} (pieces : Pieces (CommaItem limit Item) count values us)
    (bound : count ≤ limit) : count + values.length ≤ limit := by
  induction pieces with
  | nil => exact bound
  | cons piece _ ih =>
    cases piece with
    | mk _ less _ =>
      have := ih less
      rw [List.length_cons]
      omega

theorem exists_pieces_of_listed {limit : Nat} {Item : α → List Token → Prop} {first : α}
    {values : List α} {ts : List Token} (listed : Listed Item (first :: values) ts) (count : Nat)
    (bound : count + values.length ≤ limit) :
    ∃ us vs, ts = us ++ vs ∧ Item first us ∧ Pieces (CommaItem limit Item) count values vs := by
  induction values generalizing first ts count with
  | nil =>
    cases listed with
    | one item => exact ⟨ts, [], (List.append_nil ts).symm, item, .nil⟩
  | cons next values ih =>
    cases listed with
    | @more comma _ _ _ us vs item rest =>
      rw [List.length_cons] at bound
      obtain ⟨nextTokens, more, rfl, nextItem, pieces⟩ := ih rest (count + 1) (by omega)
      exact ⟨us, comma.token :: nextTokens ++ more, rfl, item,
        .cons (.mk comma (by omega) nextItem) pieces⟩

theorem separated_sound {limit : Nat} {item : Nat → Parser α} {Item : α → List Token → Prop}
    (sound : ∀ count, (item count).Sound fun value ts => count < limit ∧ Item value ts)
    (budget : Nat) :
    (separated item budget).Sound fun values ts => Listed Item values ts ∧
    values.length ≤ limit := by
  intro ts values rest clean
  unfold separated at clean
  split at clean
  · obtain ⟨rfl, rfl⟩ := Outcome.done_eq_done_iff.mp clean
    exact ⟨[], rfl, .none, Nat.zero_le limit⟩
  · obtain ⟨first, middle, found, more⟩ := Outcome.bind_eq_done_iff.mp clean
    obtain ⟨us, rfl, less, derived⟩ := (sound 0).split found
    obtain ⟨others, collected, rfl⟩ := map_eq_done_iff.mp more
    have piece : ∀ count ts value rest, afterComma? item count ts = some (.done value rest) →
        ∃ us, ts = us ++ rest ∧ CommaItem limit Item count value us := by
      intro count ts value rest step
      obtain ⟨comma, us, rfl, found⟩ := afterComma?_eq_some_iff.mp step
      obtain ⟨vs, rfl, less, derived⟩ := (sound count).split found
      exact ⟨comma.token :: vs, rfl, .mk comma less derived⟩
    obtain ⟨vs, rfl, pieces⟩ := pieces_of_many piece collected
    have length := pieces.length_le less
    exact ⟨us ++ vs, (List.append_assoc ..).symm, pieces.listed derived, by
      rw [List.length_cons]
      omega⟩

/-- The tokens go on with a comma or a closing parenthesis. -/
def EndsItem (rest : List Token) : Prop :=
  isNext .comma rest = true ∨ isNext .rightParen rest = true

theorem separated_of_listed {limit : Nat} {item : Nat → Parser α} {Item : α → List Token → Prop}
    (complete : ∀ {count value ts rest}, count < limit → Item value ts → EndsItem rest →
      item count (ts ++ rest) = .done value rest)
    (starts : ∀ {value ts rest}, Item value ts → isNext .rightParen (ts ++ rest) = false)
    {values : List α} {ts rest : List Token} (listed : Listed Item values ts)
    (bound : values.length ≤ limit) (closes : isNext .rightParen rest = true) {budget : Nat}
    (enough : values.length ≤ budget + 1) :
    separated item budget (ts ++ rest) = .done values rest := by
  cases values with
  | nil =>
    cases listed with
    | none => simp [separated, closes]
  | cons first values =>
    rw [List.length_cons] at bound enough
    obtain ⟨us, vs, rfl, derived, pieces⟩ :=
      exists_pieces_of_listed listed 1 (Nat.add_comm .. ▸ bound)
    have pieceEnds : ∀ count value ts rest, CommaItem limit Item count value ts →
        EndsItem (ts ++ rest) := by
      rintro count value ts rest ⟨comma, -, -⟩
      exact .inl (isNext_cons.mpr comma.kind_eq)
    have piece : ∀ count value ts rest, CommaItem limit Item count value ts → EndsItem rest →
        afterComma? item count (ts ++ rest) = some (.done value rest) := by
      rintro count value ts rest ⟨comma, less, derived⟩ ends
      exact afterComma?_eq_some_iff.mpr ⟨comma, _, rfl, complete less derived ends⟩
    have stop : ∀ count, afterComma? item count rest = none := by
      intro count
      cases rest with
      | nil => rfl
      | cons t rest => simp [afterComma?, isNext_cons.mp closes]
    have ends : EndsItem (vs ++ rest) := by
      cases pieces with
      | nil => exact .inr closes
      | cons next _ =>
        rw [List.append_assoc]
        exact pieceEnds _ _ _ _ next
    have collected : many (afterComma? item) budget 1 (vs ++ rest) = .done values rest :=
      many_of_pieces EndsItem piece pieceEnds pieces (.inr closes) stop (by omega)
    rw [List.append_assoc, separated, starts derived, complete (by omega) derived ends]
    simp only [Bool.false_eq_true, if_false]
    exact map_eq_done_iff.mpr ⟨values, collected, rfl⟩

end Parser

end Lox
