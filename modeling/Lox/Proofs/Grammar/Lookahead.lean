import Lox.Proofs.Grammar.Budget

/-!
# One token of lookahead

A parser decides everything by the first of the tokens that are left.  So what it has done with some
tokens it does again before any other rest with the same first token, and a value that it found
stands before anything that would not continue it.  A fault is found at the first token that nothing
can make good: the tokens before it can still be continued to something that parses.

`ReadsAt Exit p ts` says this of a parser and some tokens, where `Exit` holds of what would not
continue the value:

* `replays`: the tokens that are taken lead to the same outcome before another rest;
* `placed`: unless the tokens ran out, each report is at a token;
* `decided`: the parser passes, or a token of the given ones is at fault whatever follows it, or the
  tokens ran out and can be continued.

There is one rule for each combinator.  `Reads` bounds the number of tokens and says what a parser
can be filled in with where the tokens ran out before it.
-/

namespace Lox

/-- The fault stops the statement that it is in.  The others are reported on the way. -/
def SyntaxFault.stops : SyntaxFault → Bool
  | .missing _ | .expressionExpected => true
  | _ => false

/-- The report is at a token, and its fault stops nothing. -/
def Report.Mild (r : Report) : Prop := r.token?.isSome = true ∧ r.fault.stops = false

theorem Report.mild_of_mem {t : Token} {fault : SyntaxFault} (quiet : fault.stops = false) :
    ∀ r ∈ [Report.mk (some t) fault], r.Mild := by
  intro r mem
  rw [List.mem_singleton.mp mem]
  exact ⟨rfl, quiet⟩

namespace Outcome

variable {α β : Type}

/-- All faults in their order, the one that stopped the parser last. -/
def log (o : Outcome α) : List Report :=
  match o.reply with
  | .done _ _ => o.reports
  | .abort fault rest => o.reports ++ [⟨rest.head?, fault⟩]

/-- The outcome with other tokens left. -/
def before (o : Outcome α) (others : List Token) : Outcome α :=
  match o.reply with
  | .done value _ => ⟨o.reports, .done value others⟩
  | .abort fault _ => ⟨o.reports, .abort fault others⟩

/-- Done with the value before the rest, and all reports are mild. -/
def PassesTo (value : α) (rest : List Token) (o : Outcome α) : Prop :=
  o.reply = .done value rest ∧ ∀ r ∈ o.reports, r.Mild

/-- Done, and all reports are mild. -/
def Passes (o : Outcome α) : Prop := ∃ value rest, o.PassesTo value rest

variable {o : Outcome α} {rest others : List Token} {value : α} {fault : SyntaxFault}

theorem log_of_done (replied : o.reply = .done value rest) : o.log = o.reports := by
  simp only [log, replied]

theorem log_of_abort (replied : o.reply = .abort fault rest) :
    o.log = o.reports ++ [⟨rest.head?, fault⟩] := by
  simp only [log, replied]

theorem before_of_done (replied : o.reply = .done value rest) :
    o.before others = ⟨o.reports, .done value others⟩ := by
  simp only [before, replied]

theorem before_of_abort (replied : o.reply = .abort fault rest) :
    o.before others = ⟨o.reports, .abort fault others⟩ := by
  simp only [before, replied]

theorem before_append (reports : List Report) (o : Outcome α) (others : List Token) :
    (⟨reports ++ o.reports, o.reply⟩ : Outcome α).before others =
      ⟨reports ++ (o.before others).reports, (o.before others).reply⟩ := by
  obtain ⟨own, reply⟩ := o
  cases reply <;> rfl

theorem passesTo_done (value : α) (rest : List Token) : (done value rest).PassesTo value rest :=
  ⟨rfl, fun _ mem => by cases mem⟩

theorem PassesTo.passes (passes : o.PassesTo value rest) : o.Passes := ⟨value, rest, passes⟩

theorem PassesTo.before (passes : o.PassesTo value rest) (others : List Token) :
    (o.before others).PassesTo value others := by
  rw [before_of_done passes.1]
  exact ⟨rfl, passes.2⟩

theorem PassesTo.bind (passes : o.PassesTo value rest) {next : α → List Token → Outcome β}
    {last : β} (further : (next value rest).PassesTo last others) :
    (o.bind next).PassesTo last others := by
  rw [bind_of_done passes.1]
  exact ⟨further.1, fun r mem => (List.mem_append.mp mem).elim (passes.2 r) (further.2 r)⟩

/-- What passes in two parts passes in each of them. -/
theorem Passes.of_bind {next : α → List Token → Outcome β} (passes : (o.bind next).Passes)
    (replied : o.reply = .done value rest) : o.PassesTo value rest ∧ (next value rest).Passes := by
  obtain ⟨last, left, final, mild⟩ := passes
  rw [bind_of_done replied] at final mild
  exact ⟨⟨replied, fun r mem => mild r (List.mem_append_left _ mem)⟩,
    ⟨last, left, final, fun r mem => mild r (List.mem_append_right _ mem)⟩⟩

theorem log_bind_of_done (replied : o.reply = .done value rest)
    (next : α → List Token → Outcome β) :
    (o.bind next).log = o.reports ++ (next value rest).log := by
  rw [bind_of_done replied]
  cases final : (next value rest).reply with
  | done last left => simp only [log, final]
  | abort fault left => simp only [log, final, List.append_assoc]

theorem exists_log_bind (o : Outcome α) (next : α → List Token → Outcome β) :
    ∃ more, (o.bind next).log = o.log ++ more := by
  cases replied : o.reply with
  | done value rest =>
    exact ⟨(next value rest).log, by rw [log_bind_of_done replied, log_of_done replied]⟩
  | abort fault rest =>
    exact ⟨[], by rw [bind_of_abort replied, log_of_abort replied, List.append_nil]; rfl⟩

end Outcome

namespace Parser

variable {α β : Type} {Exit Middle Entry : List Token → Prop} {p q : Parser α} {ts : List Token}

/-- Anything may follow. -/
def Anything (_ : List Token) : Prop := True

/-- Behind the tokens taken, the token is at fault whatever follows it, and all reports before are
mild. -/
def Blames (p : Parser α) (taken : List Token) (t : Token) : Prop :=
  ∃ early fault, (∀ r ∈ early, r.Mild) ∧ fault.stops = true ∧
    ∀ others, ∃ more, (p (taken ++ t :: others)).log = early ++ ⟨some t, fault⟩ :: more

/-- One of the tokens is at fault, whatever follows it. -/
def FaultInside (p : Parser α) (ts : List Token) : Prop :=
  ∃ taken t others, ts = taken ++ t :: others ∧ p.Blames taken t

/-- The first fault that stops anything is at the end of the tokens. -/
def FaultAtEnd (p : Parser α) (ts : List Token) : Prop :=
  (p ts).rest = [] ∧ ∃ early fault more, (∀ r ∈ early, r.fault.stops = false) ∧ fault.stops = true ∧
    (p ts).log = early ++ ⟨none, fault⟩ :: more

/-- None of the tokens ends a source. -/
def Endless (ts : List Token) : Prop := ∀ t ∈ ts, t.kind ≠ .endOfFile

theorem endless_nil : Endless [] := fun _ mem => by cases mem

theorem endless_append {ts us : List Token} (left : Endless ts) (right : Endless us) :
    Endless (ts ++ us) :=
  fun t mem => (List.mem_append.mp mem).elim (left t) (right t)

theorem endless_singleton {t : Token} (other : t.kind ≠ .endOfFile) : Endless [t] := by
  intro u mem
  rw [List.mem_singleton.mp mem]
  exact other

/-- The tokens can be continued so that they pass. -/
def Completes (Exit : List Token → Prop) (p : Parser α) (ts : List Token) : Prop :=
  ∃ filling value, Endless filling ∧
    ∀ others, Exit others → (p (ts ++ (filling ++ others))).PassesTo value others

/-- The tokens can stand in the place of the rest: they start alike, or they would not continue what
passes. -/
def Follows (Exit : List Token → Prop) (o : Outcome α) (others : List Token) : Prop :=
  others.head? = o.rest.head? ∨ o.Passes ∧ Exit others

/-- The parser decides by the first of the tokens that are left. -/
structure ReadsAt (Exit : List Token → Prop) (p : Parser α) (ts : List Token) : Prop where
  /-- What was taken leads to the same outcome before another rest. -/
  replays : ∃ taken, ts = taken ++ (p ts).rest ∧
    ∀ others, Follows Exit (p ts) others → p (taken ++ others) = (p ts).before others
  /-- Unless the tokens ran out, each report is at a token. -/
  placed : (p ts).rest ≠ [] → ∀ r ∈ (p ts).reports, r.token?.isSome = true
  /-- It passes, or a token is at fault, or the tokens ran out and can be continued. -/
  decided : (p ts).Passes ∨ p.FaultInside ts ∨ (p.FaultAtEnd ts ∧ p.Completes Exit ts)

theorem Blames.of_log {taken : List Token} {t : Token} (blames : p.Blames taken t) {q : Parser β}
    {b : List Token}
    (same : ∀ others, ∃ more, (q (b ++ (taken ++ t :: others))).log =
      (p (taken ++ t :: others)).log ++ more) :
    q.Blames (b ++ taken) t := by
  obtain ⟨early, fault, mild, stops, logged⟩ := blames
  refine ⟨early, fault, mild, stops, fun others => ?_⟩
  obtain ⟨more, log⟩ := logged others
  obtain ⟨further, log'⟩ := same others
  exact ⟨more ++ further, by rw [List.append_assoc, log', log, List.append_assoc, List.cons_append]⟩

/-! ## Reading by the first token -/

/-- A parser that takes nothing, and does the same before all that may follow. -/
theorem readsAt_stay {early : List Report} {value : α} (mild : ∀ r ∈ early, r.Mild)
    (stays : ∀ others, others.head? = ts.head? ∨ Exit others →
      p others = ⟨early, .done value others⟩) :
    ReadsAt Exit p ts := by
  have here := stays ts (.inl rfl)
  have passes : (p ts).PassesTo value ts := by
    rw [here]
    exact ⟨rfl, mild⟩
  have rest := Outcome.rest_of_done passes.1
  refine ⟨⟨[], by rw [rest, List.nil_append], fun others follows => ?_⟩, fun _ r mem =>
    (passes.2 r mem).1, .inl passes.passes⟩
  have same : p others = ⟨early, .done value others⟩ := by
    apply stays
    rcases follows with head | ⟨-, exit⟩
    · exact .inl (rest ▸ head)
    · exact .inr exit
  rw [List.nil_append, same, here, Outcome.before_of_done rfl]

theorem readsAt_done {value : α}
    (stays : ∀ others, others.head? = ts.head? ∨ Exit others → p others = .done value others) :
    ReadsAt Exit p ts :=
  readsAt_stay (fun _ none => by cases none) stays

theorem readsAt_done_nil {value : α} (ended : p [] = .done value [])
    (exits : ∀ others, Exit others → p others = .done value others) : ReadsAt Exit p [] := by
  have stays : ∀ others, others.head? = none ∨ Exit others → p others = .done value others := by
    intro others follows
    rcases follows with head | exit
    · rw [List.head?_eq_none_iff.mp head, ended]
    · exact exits others exit
  exact readsAt_done stays

theorem readsAt_done_cons {t : Token} {ws : List Token} {value : α}
    (stays : ∀ us, p (t :: us) = .done value (t :: us))
    (exits : ∀ others, Exit others → p others = .done value others) : ReadsAt Exit p (t :: ws) := by
  have same : ∀ others, others.head? = some t ∨ Exit others → p others = .done value others := by
    intro others follows
    rcases follows with head | exit
    · obtain ⟨us, rfl⟩ := List.head?_eq_some_iff.mp head
      exact stays us
    · exact exits others exit
  exact readsAt_done same

/-- A parser that the tokens ran out for. -/
theorem readsAt_nil {early : List Report} {fault : SyntaxFault}
    (quiet : ∀ r ∈ early, r.fault.stops = false) (stops : fault.stops = true)
    (ended : p [] = ⟨early, .abort fault []⟩) (fills : p.Completes Exit []) :
    ReadsAt Exit p [] := by
  have rest : (p []).rest = [] := by rw [ended]; rfl
  refine ⟨⟨[], by rw [rest, List.nil_append], fun others follows => ?_⟩, fun left =>
    absurd rest left, .inr (.inr ?_)⟩
  · have none : others = [] := by
      rcases follows with head | ⟨⟨value, left, replied, -⟩, -⟩
      · rw [rest] at head
        exact List.head?_eq_none_iff.mp head
      · rw [ended] at replied
        cases replied
    rw [none, List.append_nil, ended, Outcome.before_of_abort rfl]
  · exact ⟨⟨rest, early, fault, [], quiet, stops, by rw [ended]; rfl⟩, fills⟩

/-- The parser stops where there are no tokens. -/
def Wants (p : Parser α) : Prop :=
  ∃ fault : SyntaxFault, fault.stops = true ∧ p [] = .abort fault []

theorem Wants.bind (wants : p.Wants) (next : α → Parser β) : (p >>= next).Wants := by
  obtain ⟨fault, stops, ended⟩ := wants
  refine ⟨fault, stops, ?_⟩
  rw [bind_apply, ended]
  exact Outcome.abort_bind fault [] next

theorem Wants.map (wants : p.Wants) (f : α → β) : (f <$> p).Wants :=
  wants.bind fun value => pure (f value)

theorem wants_require (requirement : Requirement) : (require requirement).Wants :=
  ⟨.missing requirement, rfl, rfl⟩

theorem Wants.readsAt (wants : p.Wants) (completes : p.Completes Exit []) : ReadsAt Exit p [] := by
  obtain ⟨fault, stops, ended⟩ := wants
  exact @readsAt_nil α Exit p [] fault (fun _ mem => by cases mem) stops ended completes

/-- A parser that does not take the first token. -/
theorem readsAt_refuse {t : Token} {fault : SyntaxFault} (stops : fault.stops = true)
    (refuses : ∀ ws, p (t :: ws) = .abort fault (t :: ws)) (ws : List Token) :
    ReadsAt Exit p (t :: ws) := by
  have rest : (p (t :: ws)).rest = t :: ws := by rw [refuses]; rfl
  refine ⟨⟨[], by rw [rest, List.nil_append], fun others follows => ?_⟩, fun _ r mem => ?_,
    .inr (.inl ?_)⟩
  · rcases follows with head | ⟨⟨value, left, replied, -⟩, -⟩
    · rw [rest, List.head?_cons, List.head?_eq_some_iff] at head
      obtain ⟨us, rfl⟩ := head
      rw [List.nil_append, refuses, refuses, Outcome.before_of_abort rfl]
      rfl
    · rw [refuses] at replied
      cases replied
  · rw [refuses] at mem
    cases mem
  · refine ⟨[], t, ws, rfl, [], fault, (fun _ none => by cases none), stops, fun others => ⟨[], ?_⟩⟩
    rw [List.nil_append, refuses]
    rfl

/-- A parser that takes the first token and goes on with another one. -/
theorem ReadsAt.cons {t : Token} {ws : List Token} (reads : ReadsAt Exit q ws)
    (takes : ∀ ws, p (t :: ws) = q ws) : ReadsAt Exit p (t :: ws) := by
  obtain ⟨⟨taken, same, replays⟩, placed, decided⟩ := reads
  refine ⟨⟨t :: taken, ?_, fun others follows => ?_⟩, ?_, ?_⟩
  · rw [takes, List.cons_append, ← same]
  · rw [takes] at follows ⊢
    rw [List.cons_append, takes]
    exact replays others follows
  · rw [takes]
    exact placed
  · rcases decided with passes | ⟨before, token, others, split, blames⟩ |
      ⟨⟨ended, early, fault, more, faults⟩, fills⟩
    · exact .inl (by rw [takes]; exact passes)
    · refine .inr (.inl ⟨t :: before, token, others, by rw [split, List.cons_append], ?_⟩)
      exact blames.of_log (b := [t]) fun others => ⟨[], by rw [List.append_nil, ← takes]; rfl⟩
    · refine .inr
        (.inr ⟨⟨by rw [takes, ended], early, fault, more, by rw [takes]; exact faults⟩, ?_⟩)
      obtain ⟨filling, value, endless, filled⟩ := fills
      refine ⟨filling, value, endless, fun others exit => ?_⟩
      rw [List.cons_append, takes]
      exact filled others exit

/-- A parser that does before a first token what another one does, which takes tokens. -/
theorem ReadsAt.sameHead {t : Token} {ws : List Token} (reads : ReadsAt Exit q (t :: ws))
    (same : ∀ ws, p (t :: ws) = q (t :: ws))
    (consumes : (q (t :: ws)).Takes (fun _ => True) (t :: ws)) : ReadsAt Exit p (t :: ws) := by
  obtain ⟨⟨taken, split, replays⟩, placed, decided⟩ := reads
  refine ⟨⟨taken, by rw [same]; exact split, fun others follows => ?_⟩, by
    rw [same]; exact placed, ?_⟩
  · rw [same] at follows ⊢
    rw [← replays others follows]
    cases taken with
    | cons t' taken =>
      obtain ⟨rfl, -⟩ := List.cons.inj split
      exact same (taken ++ others)
    | nil =>
      rw [List.nil_append] at split
      rcases follows with head | ⟨⟨value, left, replied, -⟩, -⟩
      · rw [← split, List.head?_cons, List.head?_eq_some_iff] at head
        obtain ⟨us, rfl⟩ := head
        rw [List.nil_append, same]
      · have shorter := consumes.length_lt replied
        rw [Outcome.rest_of_done replied] at split
        rw [← split] at shorter
        exact absurd shorter (Nat.lt_irrefl _)
  · rcases decided with passes | ⟨before, token, others, split, blames⟩ |
      ⟨⟨ended, early, fault, more, faults⟩, fills⟩
    · exact .inl (by rw [same]; exact passes)
    · refine .inr (.inl ⟨before, token, others, split, ?_⟩)
      refine blames.of_log (b := []) fun others => ⟨[], ?_⟩
      rw [List.append_nil, List.nil_append]
      cases before with
      | nil => rw [List.nil_append, ← (List.cons.inj split).1, same]
      | cons t' before => rw [List.cons_append, ← (List.cons.inj split).1, same]
    · refine .inr (.inr ⟨⟨by rw [same, ended], early, fault, more, by rw [same]; exact faults⟩, ?_⟩)
      obtain ⟨filling, value, endless, filled⟩ := fills
      refine ⟨filling, value, endless, fun others exit => ?_⟩
      rw [List.cons_append, same]
      exact filled others exit

/-- What ended with a value can be continued with nothing. -/
theorem ReadsAt.completes (reads : ReadsAt Exit p ts) {value : α}
    (passes : (p ts).PassesTo value []) : p.Completes Exit ts := by
  obtain ⟨taken, split, replays⟩ := reads.replays
  rw [Outcome.rest_of_done passes.1, List.append_nil] at split
  refine ⟨[], value, endless_nil, fun others exit => ?_⟩
  rw [List.nil_append, split, replays others (.inr ⟨passes.passes, exit⟩)]
  exact passes.before others

theorem ReadsAt.mono {Stricter : List Token → Prop} (reads : ReadsAt Exit p ts)
    (imp : ∀ others, Stricter others → Exit others) : ReadsAt Stricter p ts := by
  obtain ⟨⟨taken, split, replays⟩, placed, decided⟩ := reads
  refine ⟨⟨taken, split, fun others follows =>
    replays others (follows.imp_right (.imp_right (imp others)))⟩, placed, ?_⟩
  refine decided.imp_right (.imp_right (.imp_right fun fills => ?_))
  obtain ⟨filling, value, endless, filled⟩ := fills
  exact ⟨filling, value, endless, fun others exit => filled others (imp others exit)⟩

/-! ## One parser after another -/

/-- What a parser can be filled in with, where the tokens ran out before it. -/
def Fills (Entry Exit : List Token → Prop) (p : Parser α) : Prop :=
  ∃ filling value, Endless filling ∧
    ∀ others, Exit others → Entry (filling ++ others) ∧
      (p (filling ++ others)).PassesTo value others

theorem Fills.completes (fills : Fills Entry Exit p) : p.Completes Exit [] := by
  obtain ⟨filling, value, endless, filled⟩ := fills
  exact ⟨filling, value, endless, fun others exit => (filled others exit).2⟩

theorem Completes.bind (completes : p.Completes Middle ts) {next : α → Parser β}
    (fills : ∀ value, (next value).Fills Middle Exit) : (p >>= next).Completes Exit ts := by
  obtain ⟨filling, value, endless, filled⟩ := completes
  obtain ⟨more, last, endlessMore, filledMore⟩ := fills value
  refine ⟨filling ++ more, last, endless_append endless endlessMore, fun others exit => ?_⟩
  obtain ⟨middle, passes⟩ := filledMore others exit
  have first := filled (more ++ others) middle
  rw [← List.append_assoc filling] at first
  exact first.bind passes

theorem Fills.bind (first : Fills Entry Middle p) {next : α → Parser β}
    (fills : ∀ value, (next value).Fills Middle Exit) : (p >>= next).Fills Entry Exit := by
  obtain ⟨filling, value, endless, filled⟩ := first
  obtain ⟨more, last, endlessMore, filledMore⟩ := fills value
  refine ⟨filling ++ more, last, endless_append endless endlessMore, fun others exit => ?_⟩
  obtain ⟨middle, passes⟩ := filledMore others exit
  obtain ⟨entry, first⟩ := filled (more ++ others) middle
  rw [List.append_assoc]
  exact ⟨entry, first.bind passes⟩

theorem Fills.enter {Wider : List Token → Prop} (fills : p.Fills Entry Exit)
    (imp : ∀ others, Entry others → Wider others) : p.Fills Wider Exit := by
  obtain ⟨filling, value, endless, filled⟩ := fills
  exact ⟨filling, value, endless, fun others exit =>
    ⟨imp _ (filled others exit).1, (filled others exit).2⟩⟩

/-- Nothing needs to be filled in where a parser takes nothing. -/
theorem fills_of_done {value : α} (stays : ∀ others, Exit others → p others = .done value others) :
    p.Fills Exit Exit := by
  refine ⟨[], value, endless_nil, fun others exit => ⟨exit, ?_⟩⟩
  rw [List.nil_append, stays others exit]
  exact Outcome.passesTo_done value others

theorem fills_pure (value : α) : (pure value : Parser α).Fills Exit Exit :=
  fills_of_done fun _ _ => rfl

theorem Fills.map (fills : p.Fills Entry Exit) (f : α → β) : (f <$> p).Fills Entry Exit :=
  fills.bind fun value => fills_pure (f value)

section Bind

variable {next : α → Parser β} {value : α} {rest : List Token}

theorem bind_of_done (replied : (p ts).reply = .done value rest) (next : α → Parser β) :
    (p >>= next) ts = ⟨(p ts).reports ++ (next value rest).reports, (next value rest).reply⟩ :=
  Outcome.bind_of_done replied next

theorem bind_of_abort {fault : SyntaxFault} (replied : (p ts).reply = .abort fault rest)
    (next : α → Parser β) : (p >>= next) ts = ⟨(p ts).reports, .abort fault rest⟩ :=
  Outcome.bind_of_abort replied next

theorem log_bind_of_done (replied : (p ts).reply = .done value rest) (next : α → Parser β) :
    ((p >>= next) ts).log = (p ts).reports ++ (next value rest).log :=
  Outcome.log_bind_of_done replied next

theorem exists_log_bind (p : Parser α) (ts : List Token) (next : α → Parser β) :
    ∃ more, ((p >>= next) ts).log = (p ts).log ++ more :=
  Outcome.exists_log_bind (p ts) next

theorem FaultInside.bind (inside : p.FaultInside ts) (next : α → Parser β) :
    (p >>= next).FaultInside ts := by
  obtain ⟨taken, t, others, split, blames⟩ := inside
  exact ⟨taken, t, others, split, blames.of_log (b := []) fun others => exists_log_bind p _ next⟩

/-- A fault in the second part is one of the whole, since the first part does the same before it. -/
theorem FaultInside.bind_of_passes (inside : (next value).FaultInside rest)
    (reads : ReadsAt Middle p ts) (passes : (p ts).PassesTo value rest) :
    (p >>= next).FaultInside ts := by
  obtain ⟨before, split, replays⟩ := reads.replays
  obtain ⟨taken, t, others, splitRest, early, fault, mild, stops, logged⟩ := inside
  rw [Outcome.rest_of_done passes.1] at split
  refine ⟨before ++ taken, t, others, by rw [split, splitRest, List.append_assoc], ?_⟩
  refine ⟨(p ts).reports ++ early, fault, ?_, stops, fun others => ?_⟩
  · exact fun r mem => (List.mem_append.mp mem).elim (passes.2 r) (mild r)
  · obtain ⟨more, log⟩ := logged others
    have head : (taken ++ t :: others).head? = (p ts).rest.head? := by
      rw [Outcome.rest_of_done passes.1, splitRest]
      cases taken <;> rfl
    have replayed := replays _ (.inl head)
    rw [Outcome.before_of_done passes.1] at replayed
    have replied : (p (before ++ (taken ++ t :: others))).reply =
        .done value (taken ++ t :: others) := by
      rw [replayed]
    refine ⟨more, ?_⟩
    rw [List.append_assoc, log_bind_of_done replied, log, replayed, List.append_assoc]

theorem FaultAtEnd.bind (atEnd : p.FaultAtEnd ts)
    (ends : ∀ value, (p ts).reply = .done value [] → (next value []).rest = []) :
    (p >>= next).FaultAtEnd ts := by
  obtain ⟨ended, early, fault, more, quiet, stops, logged⟩ := atEnd
  obtain ⟨further, log⟩ := exists_log_bind p ts next
  refine ⟨?_, early, fault, more ++ further, quiet, stops, by
    rw [log, logged, List.append_assoc]; rfl⟩
  cases replied : (p ts).reply with
  | done value rest =>
    obtain rfl := (Outcome.rest_of_done replied).symm.trans ended
    rw [bind_of_done replied]
    exact ends value replied
  | abort fault rest =>
    rw [bind_of_abort replied, ← ended, Outcome.rest_of_abort replied]
    rfl

theorem FaultAtEnd.bind_of_passes (atEnd : (next value).FaultAtEnd rest)
    (passes : (p ts).PassesTo value rest) : (p >>= next).FaultAtEnd ts := by
  obtain ⟨ended, early, fault, more, quiet, stops, logged⟩ := atEnd
  refine ⟨?_, (p ts).reports ++ early, fault, more, ?_, stops, ?_⟩
  · rw [bind_of_done passes.1]
    exact ended
  · exact fun r mem => (List.mem_append.mp mem).elim (fun first => (passes.2 r first).2) (quiet r)
  · rw [log_bind_of_done passes.1, logged, List.append_assoc]

/-- A continuation of the second part continues the whole. -/
theorem Completes.bind_of_passes (completes : (next value).Completes Exit rest)
    (reads : ReadsAt Middle p ts) (passes : (p ts).PassesTo value rest)
    (fills : ∀ value, (next value).Fills Middle Exit) : (p >>= next).Completes Exit ts := by
  cases rest with
  | nil => exact (reads.completes passes).bind fills
  | cons t rest =>
    obtain ⟨before, split, replays⟩ := reads.replays
    obtain ⟨filling, last, endless, filled⟩ := completes
    rw [Outcome.rest_of_done passes.1] at split
    refine ⟨filling, last, endless, fun others exit => ?_⟩
    have head : (t :: rest ++ (filling ++ others)).head? = (p ts).rest.head? := by
      rw [Outcome.rest_of_done passes.1]
      rfl
    have first := passes.before (t :: rest ++ (filling ++ others))
    rw [← replays _ (.inl head), ← List.append_assoc before, ← split] at first
    exact first.bind (filled others exit)

/-- The first part may stand before what the second part takes, and before what may follow the
whole. -/
theorem Follows.first {others more : List Token} (replied : (p ts).reply = .done value rest)
    (split : rest = more ++ (next value rest).rest)
    (follows : Follows Exit ((p >>= next) ts) others)
    (exits : (∀ others, Exit others → Middle others) ∨ ∀ value, (next value).Consumes) :
    Follows Middle (p ts) (more ++ others) := by
  have left := Outcome.rest_of_done replied
  cases more with
  | cons t more =>
    refine .inl ?_
    rw [left, split]
    rfl
  | nil =>
    rw [List.nil_append] at split ⊢
    rcases follows with head | ⟨passes, exit⟩
    · have same : ((p >>= next) ts).rest = (p ts).rest := by
        rw [left, bind_of_done replied]
        exact split.symm
      rw [same] at head
      exact .inl head
    · obtain ⟨first, last, final, finished, -⟩ := Outcome.Passes.of_bind passes replied
      refine .inr ⟨first.passes, ?_⟩
      rcases exits with exits | consumes
      · exact exits others exit
      · have shorter := (consumes value rest).length_lt finished
        rw [split, Outcome.rest_of_done finished] at shorter
        exact absurd shorter (Nat.lt_irrefl _)

theorem Follows.second {others : List Token} (replied : (p ts).reply = .done value rest)
    (follows : Follows Exit ((p >>= next) ts) others) : Follows Exit (next value rest) others := by
  rcases follows with head | ⟨passes, exit⟩
  · rw [bind_of_done replied] at head
    exact .inl head
  · exact .inr ⟨(Outcome.Passes.of_bind passes replied).2, exit⟩

theorem ReadsAt.bind_of_abort {fault : SyntaxFault} (reads : ReadsAt Middle p ts)
    (replied : (p ts).reply = .abort fault rest) (fills : ∀ value, (next value).Fills Middle Exit) :
    ReadsAt Exit (p >>= next) ts := by
  obtain ⟨⟨taken, split, replays⟩, placed, decided⟩ := reads
  have left := Outcome.rest_of_abort replied
  have bound := Parser.bind_of_abort replied next
  have boundRest : ((p >>= next) ts).rest = rest := by rw [bound]; rfl
  refine ⟨⟨taken, by rw [boundRest, ← left]; exact split, fun others follows => ?_⟩,
    fun nonempty => ?_, ?_⟩
  · have head : others.head? = (p ts).rest.head? := by
      rcases follows with head | ⟨⟨value, last, done, -⟩, -⟩
      · rw [left, ← boundRest]
        exact head
      · rw [bound] at done
        cases done
    have replayed := replays others (.inl head)
    rw [Outcome.before_of_abort replied] at replayed
    have again : (p (taken ++ others)).reply = .abort fault others := by rw [replayed]
    rw [Parser.bind_of_abort again, replayed, bound, Outcome.before_of_abort rfl]
  · rw [boundRest, ← left] at nonempty
    rw [bound]
    exact placed nonempty
  · rcases decided with ⟨value, last, done, -⟩ | inside | ⟨atEnd, completes⟩
    · rw [replied] at done
      cases done
    · exact .inr (.inl (inside.bind next))
    · refine .inr (.inr ⟨atEnd.bind fun value done => ?_, completes.bind fills⟩)
      rw [replied] at done
      cases done

/-- What the first part leaves is what the second part starts with.  So the first part needs
`Middle` of what follows only where the second one takes nothing. -/
theorem ReadsAt.bind (reads : ReadsAt Middle p ts)
    (further : ∀ value rest, (p ts).reply = .done value rest → ReadsAt Exit (next value) rest)
    (fills : ∀ value, (next value).Fills Middle Exit)
    (exits : (∀ others, Exit others → Middle others) ∨ ∀ value, (next value).Consumes) :
    ReadsAt Exit (p >>= next) ts := by
  cases replied : (p ts).reply with
  | abort fault rest => exact reads.bind_of_abort replied fills
  | done value rest =>
    obtain ⟨taken, split, replays⟩ := reads.replays
    have second := further value rest replied
    obtain ⟨more, splitRest, replaysRest⟩ := second.replays
    have left := Outcome.rest_of_done replied
    have bound := bind_of_done replied next
    have boundRest : ((p >>= next) ts).rest = (next value rest).rest := by rw [bound]; rfl
    refine ⟨⟨taken ++ more, ?_, fun others follows => ?_⟩, fun nonempty => ?_, ?_⟩
    · rw [boundRest, List.append_assoc, ← splitRest, ← left]
      exact split
    · have replayed := replays _ (follows.first replied splitRest exits)
      have replayedRest := replaysRest others (follows.second replied)
      rw [Outcome.before_of_done replied] at replayed
      have again : (p (taken ++ (more ++ others))).reply = .done value (more ++ others) := by
        rw [replayed]
      rw [List.append_assoc, bind_of_done again, replayed, replayedRest, bound,
        Outcome.before_append]
    · rw [boundRest] at nonempty
      have firstNonempty : (p ts).rest ≠ [] := by
        rw [left, splitRest]
        exact fun none => nonempty (List.append_eq_nil_iff.mp none).2
      rw [bound]
      exact fun r mem => (List.mem_append.mp mem).elim (reads.placed firstNonempty r)
        (second.placed nonempty r)
    · rcases reads.decided with ⟨first, last, passes⟩ | inside | ⟨atEnd, completes⟩
      · obtain ⟨rfl, rfl⟩ : first = value ∧ last = rest := by
          have same := passes.1.symm.trans replied
          injection same with sameValue sameRest
          exact ⟨sameValue, sameRest⟩
        rcases second.decided with ⟨final, finalRest, passesRest⟩ | inside | ⟨atEnd, completes⟩
        · exact .inl ⟨final, finalRest, passes.bind passesRest⟩
        · exact .inr (.inl (inside.bind_of_passes reads passes))
        · exact .inr
            (.inr ⟨atEnd.bind_of_passes passes, completes.bind_of_passes reads passes fills⟩)
      · exact .inr (.inl (inside.bind next))
      · refine .inr (.inr ⟨atEnd.bind fun final done => ?_, completes.bind fills⟩)
        obtain ⟨final, splitEnd, -⟩ := (further final [] done).replays
        exact (List.append_eq_nil_iff.mp splitEnd.symm).2

theorem ReadsAt.map (reads : ReadsAt Exit p ts) (f : α → β) : ReadsAt Exit (f <$> p) ts :=
  reads.bind (fun _ _ _ => readsAt_done fun _ _ => rfl) (fun value => fills_pure (f value))
    (.inl fun _ exit => exit)

end Bind

/-! ## Reading up to a number of tokens -/

/-- The parser reads up to a number of tokens, and can be filled in. -/
structure Reads (bound : Nat) (Entry Exit : List Token → Prop) (p : Parser α) : Prop where
  reading : ∀ ts, ts.length < bound → ReadsAt Exit p ts
  fills : p.Fills Entry Exit

variable {bound : Nat}

theorem ReadsAt.rest_length_le (reads : ReadsAt Exit p ts) : (p ts).rest.length ≤ ts.length := by
  obtain ⟨taken, split, -⟩ := reads.replays
  have lengths := congrArg List.length split
  rw [List.length_append] at lengths
  omega

theorem Reads.enter {Wider : List Token → Prop} (reads : Reads bound Entry Exit p)
    (imp : ∀ others, Entry others → Wider others) : Reads bound Wider Exit p :=
  ⟨reads.reading, reads.fills.enter imp⟩

theorem Reads.mono {Stricter : List Token → Prop} (reads : Reads bound Entry Exit p)
    (imp : ∀ others, Stricter others → Exit others) : Reads bound Entry Stricter p := by
  refine ⟨fun ts within => (reads.reading ts within).mono imp, ?_⟩
  obtain ⟨filling, value, endless, filled⟩ := reads.fills
  exact ⟨filling, value, endless, fun others exit => filled others (imp others exit)⟩

theorem Reads.anywhere (reads : Reads bound Entry Exit p) : Reads bound Anything Exit p :=
  reads.enter fun _ _ => trivial

theorem Reads.bind (reads : Reads bound Entry Middle p) {next : α → Parser β}
    (further : ∀ value, Reads bound Middle Exit (next value))
    (exits : (∀ others, Exit others → Middle others) ∨ ∀ value, (next value).Consumes) :
    Reads bound Entry Exit (p >>= next) := by
  refine ⟨fun ts within => ?_, reads.fills.bind fun value => (further value).fills⟩
  have first := reads.reading ts within
  refine first.bind (fun value rest replied => (further value).reading rest ?_)
    (fun value => (further value).fills) exits
  have shorter := first.rest_length_le
  rw [Outcome.rest_of_done replied] at shorter
  exact Nat.lt_of_le_of_lt shorter within

/-- What stands before anything needs nothing of what comes next. -/
theorem Reads.andThen (reads : Reads bound Entry Anything p) {next : α → Parser β}
    (further : ∀ value, Reads bound Anything Exit (next value)) :
    Reads bound Entry Exit (p >>= next) :=
  reads.bind further (.inl fun _ _ => trivial)

theorem reads_pure (value : α) : Reads bound Exit Exit (pure value) :=
  ⟨fun _ _ => readsAt_done fun _ _ => rfl, fills_pure value⟩

theorem Reads.map (reads : Reads bound Entry Exit p) (f : α → β) :
    Reads bound Entry Exit (f <$> p) :=
  ⟨fun ts within => (reads.reading ts within).map f, reads.fills.map f⟩

theorem reads_reportAt {token : Token} {fault : SyntaxFault} (quiet : fault.stops = false) :
    Reads bound Exit Exit (reportAt token fault) := by
  have mild := Report.mild_of_mem (t := token) quiet
  exact ⟨fun _ _ => readsAt_stay mild fun _ _ => rfl,
    ⟨[], (), endless_nil, fun others exit => ⟨exit, rfl, mild⟩⟩⟩

theorem reads_onlyIf_reportAt {token : Token} {fault : SyntaxFault} (quiet : fault.stops = false)
    (condition : Bool) : Reads bound Exit Exit (onlyIf condition (reportAt token fault)) := by
  cases condition with
  | false => exact reads_pure ()
  | true => exact reads_reportAt quiet

theorem require_of_kind {requirement : Requirement} {t : Token} (kind : t.kind = requirement.kind)
    (ws : List Token) : require requirement (t :: ws) = .done t.toLexeme ws := by
  simp only [require, kind, if_true]

theorem require_of_other {requirement : Requirement} {t : Token} (other : t.kind ≠ requirement.kind)
    (ws : List Token) :
    require requirement (t :: ws) = .abort (.missing requirement) (t :: ws) := by
  simp only [require, other, if_false]

theorem reads_require {requirement : Requirement}
    (entry : ∀ t others, t.kind = requirement.kind → Entry (t :: others)) :
    Reads bound Entry Anything (require requirement) := by
  have fills : (require requirement).Fills Entry Anything := by
    have endless : Endless [⟨default, requirement.kind⟩] :=
      endless_singleton (by cases requirement <;> exact Kind.noConfusion)
    refine ⟨[⟨default, requirement.kind⟩], default, endless, fun others _ =>
      ⟨entry _ others rfl, ?_⟩⟩
    rw [List.singleton_append, require_of_kind rfl]
    exact Outcome.passesTo_done _ others
  refine ⟨fun ts _ => ?_, fills⟩
  cases ts with
  | nil => exact (wants_require requirement).readsAt fills.completes
  | cons t ws =>
    by_cases kind : t.kind = requirement.kind
    · exact ((reads_pure t.toLexeme).reading ws (Nat.lt_succ_self _)).cons (require_of_kind kind)
    · exact readsAt_refuse rfl (require_of_other kind) ws

/-- A parser, a token that a rule requires, and what follows it. -/
theorem Reads.thenRequire (reads : Reads bound Entry Middle p) {requirement : Requirement}
    {next : α → Lexeme → Parser β}
    (ends : ∀ t others, t.kind = requirement.kind → Middle (t :: others))
    (further : ∀ value lexeme, Reads bound Anything Exit (next value lexeme))
    (shrinks : ∀ value lexeme, (next value lexeme).Shrinks) :
    Reads bound Entry Exit (p >>= fun value => require requirement >>= next value) := by
  refine reads.bind (fun value => (reads_require ends).andThen (further value))
    (.inr fun value => ?_)
  exact ((takes_require requirement).bind (shrinks value)).consumes

section ReportHere

variable {fault : SyntaxFault}

theorem Fills.reportHere (fills : p.Fills Entry Exit) (consumes : p.Consumes)
    (quiet : fault.stops = false) : (Parser.reportHere fault >>= fun _ => p).Fills Entry Exit := by
  obtain ⟨filling, value, endless, filled⟩ := fills
  refine ⟨filling, value, endless, fun others exit => ⟨(filled others exit).1, ?_⟩⟩
  have passes := (filled others exit).2
  have longer := (consumes _).length_lt passes.1
  cases whole : filling ++ others with
  | nil =>
    rw [whole] at longer
    exact absurd longer (Nat.not_lt_zero _)
  | cons t ws =>
    rw [whole] at passes
    have first : (reportAt t fault (t :: ws)).PassesTo () (t :: ws) :=
      ⟨rfl, Report.mild_of_mem quiet⟩
    exact first.bind passes

/-- A fault that is reported at the first token stops nothing. -/
theorem Reads.reportHere (reads : Reads bound Entry Exit p) (consumes : p.Consumes)
    (wants : p.Wants) (quiet : fault.stops = false) :
    Reads bound Entry Exit (Parser.reportHere fault >>= fun _ => p) := by
  have fills := reads.fills.reportHere consumes quiet
  refine ⟨fun ts within => ?_, fills⟩
  cases ts with
  | nil =>
    obtain ⟨missing, stops, ended⟩ := wants
    have first : (Parser.reportHere fault []).reply = .done () [] := rfl
    have quietly : ∀ r ∈ [Report.mk none fault], r.fault.stops = false := by
      intro r mem
      rw [List.mem_singleton.mp mem]
      exact quiet
    exact readsAt_nil quietly stops (by rw [bind_of_done first, ended]; rfl) fills.completes
  | cons t ws =>
    have reading : Reads bound Entry Exit (reportAt t fault >>= fun _ => p) :=
      (reads_reportAt quiet).bind (fun _ => reads) (.inr fun _ => consumes)
    have taking : (reportAt t fault >>= fun _ => p).Consumes :=
      (shrinks_reportAt t fault).bind_takes fun _ => consumes
    exact (reading.reading (t :: ws) within).sameHead (fun _ => rfl) (taking (t :: ws))

theorem Reads.onlyIf_reportHere (reads : Reads bound Entry Exit p) (consumes : p.Consumes)
    (wants : p.Wants) (quiet : fault.stops = false) (condition : Bool) :
    Reads bound Entry Exit (onlyIf condition (Parser.reportHere fault) >>= fun _ => p) := by
  cases condition with
  | false => exact reads
  | true => exact reads.reportHere consumes wants quiet

end ReportHere

/-! ### Choices by the first token -/

theorem unlessNext_of_next {kind : Kind} (next : isNext kind ts = true) :
    unlessNext kind p ts = .done none ts := by
  simp only [unlessNext, next, if_true]

theorem Reads.unlessNext {kind : Kind} (reads : Reads bound Entry Middle p) (consumes : p.Consumes)
    (wants : p.Wants) (exits : ∀ others, isNext kind others = true → Middle others) :
    Reads bound Anything (isNext kind · = true) (Parser.unlessNext kind p) := by
  have fills : (Parser.unlessNext kind p).Fills Anything (isNext kind · = true) :=
    (fills_of_done fun _ next => unlessNext_of_next next).enter fun _ _ => trivial
  refine ⟨fun ts within => ?_, fills⟩
  cases ts with
  | nil =>
    obtain ⟨fault, stops, ended⟩ := wants.map some
    exact Wants.readsAt ⟨fault, stops, ended⟩ fills.completes
  | cons t ws =>
    cases found : t.kind == kind with
    | true =>
      exact readsAt_done_cons (fun _ => unlessNext_of_next found) fun _ next =>
        unlessNext_of_next next
    | false =>
      have same : ∀ ws, Parser.unlessNext kind p (t :: ws) = (some <$> p) (t :: ws) := fun ws => by
        simp only [Parser.unlessNext, isNext, found, Bool.false_eq_true, if_false]
      have read := (reads.map some).reading (t :: ws) within
      exact (read.mono exits).sameHead same (consumes.map some (t :: ws))

theorem ifNext_of_other {kind : Kind} (other : isNext kind ts = false) :
    ifNext kind p ts = .done none ts := by
  cases ts with
  | nil => rfl
  | cons t ws =>
    have different : t.kind ≠ kind := beq_eq_false_iff_ne.mp other
    simp only [ifNext, different, if_false]

theorem Reads.ifNext {kind : Kind} (reads : Reads bound Entry Middle p)
    (excludes : ∀ others, Exit others → isNext kind others = false)
    (exits : ∀ others, Exit others → Middle others) :
    Reads bound Exit Exit (Parser.ifNext kind p) := by
  have stays : ∀ others, Exit others → Parser.ifNext kind p others = .done none others :=
    fun others exit =>
    ifNext_of_other (excludes others exit)
  refine ⟨fun ts within => ?_, fills_of_done stays⟩
  cases ts with
  | nil => exact readsAt_done_nil rfl stays
  | cons t ws =>
    by_cases found : t.kind = kind
    · have read := (reads.map some).reading ws (Nat.lt_of_succ_lt within)
      exact (read.mono exits).cons fun ws => by simp only [Parser.ifNext, found, if_true]
    · exact readsAt_done_cons (fun _ => ifNext_of_other (beq_eq_false_iff_ne.mpr found)) stays

/-! ### Loops -/

/-- A loop over steps that a token opens, so that a step takes this token. -/
theorem reads_chainAll {step? : α → List Token → Option (Outcome α)}
    (ends : ∀ value, step? value [] = none)
    (steps : ∀ t, (∀ value ws, step? value (t :: ws) = none) ∨
      ∃ body : α → Parser α, (∀ value ws, step? value (t :: ws) = some (body value ws)) ∧
        (∀ value ws, ws.length + 1 < bound → ReadsAt Exit (body value) ws))
    (consumes : ∀ value ts o, step? value ts = some o → o.Takes (fun _ => True) ts)
    (halts : ∀ value others, Exit others → step? value others = none) (value : α) :
    Reads bound Exit Exit (chainAll step? value) := by
  have stays : ∀ value others, Exit others → chainAll step? value others = .done value others :=
    fun value others exit => chainAll_of_none (halts value others exit)
  have fills : ∀ value, (chainAll step? value).Fills Exit Exit :=
    fun value => fills_of_done (stays value)
  refine ⟨fun ts within => ?_, fills value⟩
  induction size : ts.length using Nat.strongRecOn generalizing ts value with
  | ind size ih =>
    cases ts with
    | nil => exact readsAt_done_nil (chainAll_of_none (ends value)) (stays value)
    | cons t ws =>
      rcases steps t with none | ⟨body, some, reads⟩
      · exact readsAt_done_cons (fun us => chainAll_of_none (none value us)) (stays value)
      · have taken : ∀ ws, chainAll step? value (t :: ws) = (body value >>= chainAll step?) ws :=
          fun ws =>
          chainAll_of_some ends consumes (some value ws)
        have first := reads value ws within
        refine (first.bind (fun last rest replied => ?_) fills (.inl fun _ exit => exit)).cons taken
        have shorter := first.rest_length_le
        rw [Outcome.rest_of_done replied] at shorter
        rw [List.length_cons] at size within
        exact ih rest.length (by omega) last rest (by omega) rfl

/-- A loop whose step is decided by the first token. -/
theorem reads_manyAll {step? : Nat → List Token → Option (Outcome α)} (halts : Token → Bool)
    (item : Nat → Parser α) (ends : ∀ count, step? count [] = none)
    (steps : ∀ count t ws, step? count (t :: ws) = if halts t then none
      else some (item count (t :: ws)))
    (consumes : ∀ count t ws, (item count (t :: ws)).Takes (fun _ => True) (t :: ws))
    (reads : ∀ count t ws, ws.length + 1 < bound → ReadsAt Middle (item count) (t :: ws))
    (exits : ∀ others, Exit others → Middle others)
    (halting : ∀ t others, Exit (t :: others) → halts t = true) (count : Nat) :
    Reads bound Exit Exit (manyAll step? count) := by
  have consumed : ∀ count ts o, step? count ts = some o → o.Takes (fun _ => True) ts := by
    intro count ts o found
    cases ts with
    | nil =>
      rw [ends] at found
      cases found
    | cons t ws =>
      rw [steps] at found
      split at found
      · cases found
      · cases found
        exact consumes count t ws
  have halted : ∀ count t, halts t = true →
      ∀ us, manyAll step? count (t :: us) = .done [] (t :: us) := by
    intro count t halt us
    refine manyAll_of_none ?_
    rw [steps, halt]
    rfl
  have stays : ∀ count others, Exit others → manyAll step? count others = .done [] others := by
    intro count others exit
    cases others with
    | nil => exact manyAll_of_none (ends count)
    | cons t others => exact halted count t (halting t others exit) others
  have fills : ∀ count, (manyAll step? count).Fills Exit Exit :=
    fun count => fills_of_done (stays count)
  refine ⟨fun ts within => ?_, fills count⟩
  induction size : ts.length using Nat.strongRecOn generalizing ts count with
  | ind size ih =>
    cases ts with
    | nil => exact readsAt_done_nil (manyAll_of_none (ends count)) (stays count)
    | cons t ws =>
      cases halt : halts t with
      | true => exact readsAt_done_cons (halted count t halt) (stays count)
      | false =>
        have same : ∀ ws, manyAll step? count (t :: ws) =
            (item count >>= fun value => (value :: ·) <$> manyAll step? (count + 1)) (t :: ws) :=
              fun ws =>
          manyAll_of_some ends consumed (by rw [steps, halt]; rfl)
        have first := reads count t ws within
        have further : ∀ value rest, (item count (t :: ws)).reply = .done value rest →
            ReadsAt Exit ((value :: ·) <$> manyAll step? (count + 1)) rest := by
          intro value rest replied
          have shorter := (consumes count t ws).length_lt replied
          exact (ih rest.length (by omega) (count + 1) rest (by omega) rfl).map _
        have shrinks : ∀ value, ((value :: ·) <$> manyAll step? (count + 1)).Shrinks := fun value =>
          Shrinks.map
            (fun rest =>
              shrinks_many (fun _ _ _ found => (consumed _ _ _ found).rest_suffix) _ _ rest) _
        have taken := (consumes count t ws).bind fun value => shrinks value
        exact (first.bind further (fun _ => (fills _).enter exits |>.map _) (.inl exits)).sameHead
          same taken

section Separated

variable {item : Nat → Parser α} (items : ∀ count, Reads bound Anything Middle (item count))
  (consumes : ∀ count, (item count).Consumes) (exits : ∀ others, isNext .rightParen others = true →
    Middle others)

include items consumes exits

theorem reads_afterComma (count : Nat) :
    Reads bound (isNext .rightParen · = true) (isNext .rightParen · = true)
      (manyAll (afterComma? item) count) := by
  have steps : ∀ count t ws, afterComma? item count (t :: ws) =
      if t.kind != .comma then none else some (item count (t :: ws).tail) := by
    intro count t ws
    by_cases comma : t.kind = .comma
    · simp only [afterComma?, comma, bne_self_eq_false, Bool.false_eq_true, if_true, if_false,
        List.tail_cons]
    · simp only [afterComma?, comma, bne_iff_ne.mpr comma, if_true, if_false]
  refine reads_manyAll (·.kind != .comma) (fun count ts => item count ts.tail) (fun _ => rfl) steps
    (fun count t ws => ?_) (fun count t ws within => ?_) exits ?_ count
  · exact Outcome.takes_of_head ((consumes count).shrinks ws) trivial
  · exact ((items count).reading ws (Nat.lt_of_succ_lt within)).cons fun _ => rfl
  · intro t others closing
    rw [isNext_cons.mp closing]
    rfl

theorem reads_separatedAll (wants : (item 0).Wants) :
    Reads bound Anything (isNext .rightParen · = true) (separatedAll item) := by
  have closed : ∀ others, isNext .rightParen others = true →
      separatedAll item others = .done [] others := by
    intro others closing
    simp only [separatedAll, ample, separated, closing, if_true]
  have fills : (separatedAll item).Fills Anything (isNext .rightParen · = true) :=
    (fills_of_done closed).enter fun _ _ => trivial
  have further := reads_afterComma items consumes exits 1
  have collected :=
    (items 0).bind (fun value => (further.map (value :: ·)).enter exits) (.inl exits)
  have shrinks : ∀ value, ((value :: ·) <$> manyAll (afterComma? item) 1).Shrinks := fun value =>
    Shrinks.map (fun rest => shrinks_many
      (fun _ _ _ found =>
        (afterComma?_consumes (fun count => (consumes count).shrinks) found).rest_suffix) _ _ rest)
          _
  refine ⟨fun ts within => ?_, fills⟩
  cases ts with
  | nil =>
    obtain ⟨fault, stops, ended⟩ :=
      wants.bind fun value => (value :: ·) <$> manyAll (afterComma? item) 1
    rw [← separatedAll_eq (fun count => (consumes count).shrinks) isNext_nil] at ended
    exact Wants.readsAt ⟨fault, stops, ended⟩ fills.completes
  | cons t ws =>
    cases found : t.kind == .rightParen with
    | true => exact readsAt_done_cons (fun us => closed (t :: us) found) closed
    | false =>
      have same : ∀ ws, separatedAll item (t :: ws) = _ := fun ws =>
        separatedAll_eq (fun count => (consumes count).shrinks) found
      exact (collected.reading (t :: ws) within).sameHead same
        (((consumes 0).bind shrinks) (t :: ws))

end Separated

end Parser

end Lox
