import Lox.Proofs.Number.Reading
import Lox.Token.Scan
import Mathlib.Data.List.Infix
import Mathlib.Data.List.TakeWhile

/-!
# What a segment is

`Segment.first` cuts the first segment off a text.  Here is what it cuts off, said without saying
how to find it: one blank character, one comment, one token or one fault, each of which goes on as
far as it can.

* `Segment.Fits`: the segment can stand before the rest of a text.
* `Segment.Longest`: words and numbers end where nothing longer is a word or a number.
* `Segment.first_eq_iff`: the first segment of a text is the one that fits there.
-/

namespace Lox

/-- The tokens that are neither words nor literals, with their kinds. -/
def Kind.marks : List (String × Kind) := [
  ("(", .leftParen), (")", .rightParen), ("\x7b", .leftBrace), ("\x7d", .rightBrace),
  (",", .comma), (".", .dot),
  ("-", .minus), ("+", .plus), (";", .semicolon), ("/", .slash), ("*", .star), ("!", .bang),
  ("!=", .bangEqual),
  ("=", .equal), ("==", .equalEqual), (">", .greater), (">=", .greaterEqual), ("<", .less),
  ("<=", .lessEqual)]

/-- The characters that make another token or a comment of a mark. -/
def Kind.extensions : Kind → List Char
  | .bang | .equal | .greater | .less => ['=']
  | .slash => ['/', '*']
  | _ => []

namespace Segment

open Text (head?_dropWhile_eq_false takeWhile_of_stops dropWhile_of_stops)

/-! ## What segments are -/

/-- A word: a letter or an underscore, and then letters, underscores and digits. -/
inductive IsWord : List Char → Prop where
  | mk {c : Char} {cs : List Char} : startsWord c → (∀ d ∈ cs, continuesWord d) → IsWord (c :: cs)

/-- A row of at least one digit. -/
structure IsDigits (digits : List Char) : Prop where
  ne_nil : digits ≠ []
  all : ∀ c ∈ digits, c.isDigit

/-- A number: digits, or digits with a point among them. -/
inductive IsNumeral : List Char → Prop where
  | whole {digits : List Char} : IsDigits digits → IsNumeral digits
  | point {digits fraction : List Char} : IsDigits digits → IsDigits fraction →
    IsNumeral (digits ++ '.' :: fraction)

/-- The text has the form, and nothing longer has it at the start of the text with the rest. -/
structure Longest (Form : List Char → Prop) (text rest : List Char) : Prop where
  form : Form text
  length_le : ∀ longer, Form longer → longer <+: text ++ rest → longer.length ≤ text.length

/-- The end of a block comment. -/
def closing : List Char := ['*', '/']

/-- The characters that separate tokens. -/
def blanks : List Char := [' ', '\r', '\t', '\n']

/-- Some token, comment or blank starts with the character. -/
inductive Starts (c : Char) : Prop where
  | blank : c ∈ blanks → Starts c
  | mark {text : String} {kind : Kind} : (text, kind) ∈ Kind.marks →
    text.toList.head? = some c → Starts c
  | quote : c = '"' → Starts c
  | digit : c.isDigit → Starts c
  | letter : startsWord c → Starts c

/-- The segment can stand before the rest of a text. -/
inductive Fits : Segment → List Char → Prop where
  | blank {c : Char} {rest : List Char} : c ∈ blanks → Fits ⟨[c], .blank⟩ rest
  /-- A line comment goes on to the end of the line. -/
  | lineComment {body rest : List Char} : '\n' ∉ body → (∀ c ∈ rest.head?, c = '\n') →
    Fits ⟨'/' :: '/' :: body, .lineComment⟩ rest
  /-- A block comment goes on to the first `*/` behind its start. -/
  | blockComment {body rest : List Char} : ¬ closing <:+: body ++ ['*'] →
    Fits ⟨'/' :: '*' :: body ++ closing, .blockComment⟩ rest
  | mark {text rest : List Char} {kind : Kind} : (String.ofList text, kind) ∈ Kind.marks →
    (∀ c ∈ rest.head?, c ∉ kind.extensions) → Fits ⟨text, .token kind⟩ rest
  | string {value : String} {rest : List Char} : '"' ∉ value.toList →
    Fits ⟨'"' :: value.toList ++ ['"'], .token (.string value)⟩ rest
  | number {text rest : List Char} {value : Float} : Longest IsNumeral text rest →
    Numeral.read? (String.ofList text) = some value → Fits ⟨text, .token (.number value)⟩ rest
  | keyword {text rest : List Char} {kind : Kind} : Longest IsWord text rest →
    (String.ofList text, kind) ∈ Kind.keywords → Fits ⟨text, .token kind⟩ rest
  | identifier {text rest : List Char} : Longest IsWord text rest →
    (∀ kind, (String.ofList text, kind) ∉ Kind.keywords) → Fits ⟨text, .token .identifier⟩ rest
  | unexpected {c : Char} {rest : List Char} : ¬ Starts c → Fits ⟨[c], .fault (.unexpected c)⟩ rest
  | openString {body : List Char} : '"' ∉ body → Fits ⟨'"' :: body, .fault .openString⟩ []
  | openComment {body : List Char} : ¬ closing <:+: body →
    Fits ⟨'/' :: '*' :: body, .fault .openComment⟩ []

/-! ## Longest forms -/

section Longest

variable {Form : List Char → Prop}

theorem Longest.eq_of_append_eq {text rest other more : List Char} (left : Longest Form text rest)
    (right : Longest Form other more) (same : text ++ rest = other ++ more) :
    text = other ∧ rest = more := by
  have le : text.length ≤ other.length := right.length_le text left.form ⟨rest, same⟩
  have ge : other.length ≤ text.length := left.length_le other right.form ⟨more, same.symm⟩
  exact List.append_inj same (Nat.le_antisymm le ge)

theorem length_le_takeWhile {p : Char → Bool} {cs longer : List Char} (all : ∀ c ∈ longer, p c)
    (start : longer <+: cs) : longer.length ≤ (cs.takeWhile p).length := by
  obtain ⟨rest, rfl⟩ := start
  rw [List.takeWhile_append_of_pos all, List.length_append]
  omega

theorem longest_takeWhile {p : Char → Bool} {cs : List Char} (form : Form (cs.takeWhile p))
    (only : ∀ text, Form text → ∀ c ∈ text, p c) :
    Longest Form (cs.takeWhile p) (cs.dropWhile p) where
  form := form
  length_le longer formLonger start := by
    rw [List.takeWhile_append_dropWhile] at start
    exact length_le_takeWhile (only longer formLonger) start

theorem bne_of_not_mem {stop : Char} {text : List Char} (absent : stop ∉ text) :
    ∀ c ∈ text, (c != stop) = true := by
  intro c mem
  rw [bne_iff_ne]
  rintro rfl
  exact absent mem

end Longest

/-! ## Words -/

theorem IsWord.continues {text : List Char} (word : IsWord text) : ∀ c ∈ text, continuesWord c := by
  cases word with
  | mk starts continues =>
    intro d mem
    rcases List.mem_cons.1 mem with rfl | mem
    · rw [continuesWord, starts, Bool.true_or]
    · exact continues d mem

theorem longest_word {c : Char} (starts : startsWord c) (cs : List Char) :
    Longest IsWord ((c :: cs).takeWhile continuesWord) ((c :: cs).dropWhile continuesWord) := by
  apply longest_takeWhile
  · have continues : continuesWord c := by rw [continuesWord, starts, Bool.true_or]
    rw [List.takeWhile_cons_of_pos continues]
    exact .mk starts fun d mem => List.mem_takeWhile_imp mem
  · intro text word
    exact word.continues

theorem ofWord_of_mem {word : String} {kind : Kind} (mem : (word, kind) ∈ Kind.keywords) :
    Kind.ofWord word = kind := by
  have table : ∀ entry ∈ Kind.keywords, Kind.ofWord entry.1 = entry.2 := by decide
  exact table _ mem

theorem ofWord_of_forall_not_mem {word : String} (other : ∀ kind, (word, kind) ∉ Kind.keywords) :
    Kind.ofWord word = .identifier := by
  have absent : Kind.keywords.lookup word = none := by
    rw [List.lookup_eq_none_iff]
    intro entry mem
    rw [bne_iff_ne]
    rintro rfl
    exact other entry.2 mem
  rw [Kind.ofWord, absent, Option.getD_none]

/-! ## Numbers -/

theorem toNat_of_isDigit {c : Char} (digit : c.isDigit) : 48 ≤ c.toNat ∧ c.toNat ≤ 57 := by
  rw [Char.isDigit, Bool.and_eq_true, decide_eq_true_eq, decide_eq_true_eq] at digit
  exact digit

theorem not_mem_blanks_of_isDigit {c : Char} (digit : c.isDigit) : c.toNat ∉ Text.blanks := by
  have bounds := toNat_of_isDigit digit
  simp only [Text.blanks, List.mem_cons, List.not_mem_nil, or_false]
  omega

theorem read?_digits {digits : List Char} (isDigits : IsDigits digits) :
    Numeral.read? (String.ofList digits) = some (Numeral.decimal digits [] 0).toFloat := by
  have isDecimal := Numeral.IsDecimal.integer isDigits.ne_nil isDigits.all .none
    ((Numeral.isNearest_iff isDigits.all (List.forall_mem_nil _)).2 rfl)
  rw [List.append_nil] at isDecimal
  refine Numeral.read?_eq_some_iff.2 ⟨digits, ?_, .plain (.decimal isDecimal)⟩
  rw [String.toList_ofList]
  exact .self fun c mem => not_mem_blanks_of_isDigit (isDigits.all c mem)

theorem read?_point {digits fraction : List Char} (isDigits : IsDigits digits)
    (isFraction : IsDigits fraction) :
    Numeral.read? (String.ofList (digits ++ '.' :: fraction)) =
      some (Numeral.decimal digits fraction 0).toFloat := by
  have some : digits ++ fraction ≠ [] := by simp [isDigits.ne_nil]
  have isDecimal := Numeral.IsDecimal.pointed some isDigits.all isFraction.all .none
    ((Numeral.isNearest_iff isDigits.all isFraction.all).2 rfl)
  rw [List.append_nil] at isDecimal
  refine Numeral.read?_eq_some_iff.2 ⟨_, ?_, .plain (.decimal isDecimal)⟩
  rw [String.toList_ofList]
  refine .self ?_
  intro c mem
  rcases List.mem_append.1 mem with mem | mem
  · exact not_mem_blanks_of_isDigit (isDigits.all c mem)
  · rcases List.mem_cons.1 mem with rfl | mem
    · decide
    · exact not_mem_blanks_of_isDigit (isFraction.all c mem)

theorem IsNumeral.head_isDigit {text rest : List Char} (isNumeral : IsNumeral text) {c : Char}
    {cs : List Char} (same : text ++ rest = c :: cs) : c.isDigit := by
  have head : ∀ {digits more : List Char}, IsDigits digits → digits ++ more = c :: cs →
      c.isDigit := by
    intro digits more isDigits same
    obtain ⟨d, ds, rfl⟩ := List.exists_cons_of_ne_nil isDigits.ne_nil
    rw [← (List.cons.inj same).1]
    exact isDigits.all d List.mem_cons_self
  cases isNumeral with
  | whole isDigits => exact head isDigits same
  | point isDigits _ =>
    rw [List.append_assoc] at same
    exact head isDigits same

theorem longest_numeral_whole {cs : List Char} (isDigits : IsDigits (cs.takeWhile Char.isDigit))
    (noFraction : ∀ after, cs.dropWhile Char.isDigit = '.' :: after →
      after.takeWhile Char.isDigit = []) :
    Longest IsNumeral (cs.takeWhile Char.isDigit) (cs.dropWhile Char.isDigit) where
  form := .whole isDigits
  length_le longer isNumeral start := by
    rw [List.takeWhile_append_dropWhile] at start
    cases isNumeral with
    | whole isLonger => exact length_le_takeWhile isLonger.all start
    | @point digits fraction isLonger isFraction =>
      obtain ⟨rest, rfl⟩ := start
      rw [List.append_assoc, List.cons_append] at noFraction
      have none := noFraction _ (dropWhile_of_stops isLonger.all (by simp))
      rw [List.takeWhile_append_of_pos isFraction.all, List.append_eq_nil_iff] at none
      exact absurd none.1 isFraction.ne_nil

theorem longest_numeral_point {cs after : List Char}
    (isDigits : IsDigits (cs.takeWhile Char.isDigit))
    (point : cs.dropWhile Char.isDigit = '.' :: after)
    (isFraction : IsDigits (after.takeWhile Char.isDigit)) :
    Longest IsNumeral (cs.takeWhile Char.isDigit ++ '.' :: after.takeWhile Char.isDigit)
      (after.dropWhile Char.isDigit) where
  form := .point isDigits isFraction
  length_le longer isNumeral start := by
    have whole : cs = cs.takeWhile Char.isDigit ++ '.' :: after := by
      rw [← point, List.takeWhile_append_dropWhile]
    rw [List.append_assoc, List.cons_append, List.takeWhile_append_dropWhile, ← whole] at start
    rw [List.length_append, List.length_cons]
    cases isNumeral with
    | whole isLonger =>
      have le := length_le_takeWhile isLonger.all start
      omega
    | @point digits fraction isLonger isFractionLonger =>
      obtain ⟨rest, rfl⟩ := start
      rw [List.append_assoc, List.cons_append] at point ⊢
      rw [dropWhile_of_stops isLonger.all (by simp), List.cons.injEq] at point
      rw [takeWhile_of_stops isLonger.all (by simp), ← point.2,
        List.takeWhile_append_of_pos isFractionLonger.all]
      simp only [List.length_append, List.length_cons]
      omega

/-! ## Block comments -/

theorem commentLength?_cons (count : Nat) (c : Char) (cs : List Char) :
    commentLength? count (c :: cs) =
      if closing <+: c :: cs then some (count + 2) else commentLength? (count + 1) cs := by
  by_cases start : closing <+: c :: cs
  · rw [if_pos start]
    obtain ⟨rest, same⟩ := start
    cases same
    rfl
  · rw [if_neg start, commentLength?]
    rintro rest rfl rfl
    exact start ⟨rest, rfl⟩

theorem commentLength?_eq_none {cs : List Char} (never : ¬ closing <:+: cs) (count : Nat) :
    commentLength? count cs = none := by
  induction cs generalizing count with
  | nil => rfl
  | cons c cs ih =>
    rw [List.infix_cons_iff, not_or] at never
    rw [commentLength?_cons, if_neg never.1, ih never.2]

theorem commentLength?_append {body : List Char} (first : ¬ closing <:+: body ++ ['*'])
    (rest : List Char) (count : Nat) :
    commentLength? count (body ++ closing ++ rest) = some (count + body.length + 2) := by
  induction body generalizing count with
  | nil => simp [closing, commentLength?]
  | cons c body ih =>
    rw [List.cons_append, List.infix_cons_iff, not_or] at first
    have later : ¬ closing <+: c :: (body ++ closing ++ rest) := by
      intro start
      apply first.1
      refine List.prefix_of_prefix_length_le start ⟨'/' :: rest, by simp [closing]⟩ ?_
      simp [closing]
    rw [List.cons_append, List.cons_append, commentLength?_cons, if_neg later, ih first.2,
      List.length_cons]
    congr 1
    omega

theorem exists_first_closing {cs : List Char} (closes : closing <:+: cs) :
    ∃ body rest, cs = body ++ closing ++ rest ∧ ¬ closing <:+: body ++ ['*'] := by
  induction cs with
  | nil => simp [closing] at closes
  | cons c cs ih =>
    by_cases start : closing <+: c :: cs
    · obtain ⟨rest, same⟩ := start
      exact ⟨[], rest, by simpa using same.symm, by simp [closing, List.infix_cons_iff]⟩
    · rw [List.infix_cons_iff] at closes
      obtain ⟨body, rest, rfl, first⟩ := ih (closes.resolve_left start)
      refine ⟨c :: body, rest, by simp, ?_⟩
      rw [List.cons_append, List.infix_cons_iff, not_or]
      refine ⟨?_, first⟩
      intro early
      apply start
      have whole : c :: (body ++ closing ++ rest) = c :: (body ++ ['*']) ++ '/' :: rest := by
        simp [closing]
      rw [whole]
      exact early.trans (List.prefix_append _ _)

/-! ## The first segment -/

/-- The characters that decide alone what starts with them. -/
def specials : List Char :=
  blanks ++ ['(', ')', '\x7b', '\x7d', ',', '.', '-', '+', ';', '*', '!', '=', '<', '>', '/', '"']

theorem first_of_not_special {c : Char} (other : c ∉ specials) (cs : List Char) :
    first c cs = if c.isDigit then numeral (c :: cs) else if startsWord c then word (c :: cs)
      else (⟨[c], .fault (.unexpected c)⟩, cs) := by
  simp only [specials, blanks, List.mem_append, List.mem_cons, List.not_mem_nil, or_false, not_or]
    at other
  have symbol : symbol? c = none := by
    unfold symbol?
    split <;> simp_all
  have comparison : comparison? c = none := by
    unfold comparison?
    split <;> simp_all
  simp [first, isBlank, symbol, comparison, other]

theorem exists_numeral_eq {c : Char} (digit : c.isDigit) (cs : List Char) :
    ∃ text value rest, numeral (c :: cs) = (⟨text, .token (.number value)⟩, rest) ∧
      text ++ rest = c :: cs ∧
      Longest IsNumeral text rest ∧ Numeral.read? (String.ofList text) = some value := by
  have isDigits : IsDigits ((c :: cs).takeWhile Char.isDigit) :=
    ⟨by simp [digit], fun d mem => List.mem_takeWhile_imp mem⟩
  have split := List.takeWhile_append_dropWhile (p := Char.isDigit) (l := c :: cs)
  generalize c :: cs = text at isDigits split ⊢
  unfold numeral
  dsimp only
  split
  · next after point =>
    split
    · next none =>
      refine ⟨_, _, _, rfl, split, longest_numeral_whole isDigits ?_, read?_digits isDigits⟩
      intro other same
      rw [point, List.cons.injEq] at same
      rw [← same.2]
      exact List.isEmpty_iff.1 none
    · next some =>
      have isFraction : IsDigits (after.takeWhile Char.isDigit) :=
        ⟨fun empty => some (List.isEmpty_iff.2 empty), fun d mem => List.mem_takeWhile_imp mem⟩
      refine ⟨_, _, _, rfl, ?_, longest_numeral_point isDigits point isFraction,
        read?_point isDigits isFraction⟩
      rw [List.append_assoc, List.cons_append, List.takeWhile_append_dropWhile, ← point, split]
  · next noPoint =>
    refine ⟨_, _, _, rfl, split, longest_numeral_whole isDigits ?_, read?_digits isDigits⟩
    intro after point
    exact absurd point (noPoint after)

theorem quoted_eq {body : List Char} (inside : '"' ∉ body) (rest : List Char) :
    quoted (body ++ '"' :: rest) =
      (⟨'"' :: body ++ ['"'], .token (.string (String.ofList body))⟩, rest) := by
  have stops : ∀ c ∈ ('"' :: rest).head?, (c != '"') = false := by simp
  rw [quoted, takeWhile_of_stops (bne_of_not_mem inside) stops,
    dropWhile_of_stops (bne_of_not_mem inside) stops]

theorem quoted_open {body : List Char} (inside : '"' ∉ body) :
    quoted body = (⟨'"' :: body, .fault .openString⟩, []) := by
  have plain := bne_of_not_mem inside
  rw [quoted, List.takeWhile_eq_self_iff.2 plain, List.dropWhile_eq_nil_iff.2 plain]

theorem slash_line {body rest : List Char} (inside : '\n' ∉ body)
    (ends : ∀ c ∈ rest.head?, c = '\n') :
    slash ('/' :: (body ++ rest)) = (⟨'/' :: '/' :: body, .lineComment⟩, rest) := by
  have stops : ∀ c ∈ rest.head?, (c != '\n') = false := by
    intro c head
    rw [ends c head, bne_self_eq_false]
  rw [slash, takeWhile_of_stops (bne_of_not_mem inside) stops,
    dropWhile_of_stops (bne_of_not_mem inside) stops]

theorem slash_block {body : List Char} (first : ¬ closing <:+: body ++ ['*']) (rest : List Char) :
    slash ('*' :: (body ++ closing ++ rest)) =
      (⟨'/' :: '*' :: body ++ closing, .blockComment⟩, rest) := by
  simp only [slash, commentLength?_append first, cut]
  have length : 2 + body.length + 2 = ('/' :: '*' :: body ++ closing).length := by
    simp [closing]
    omega
  have whole : '/' :: '*' :: (body ++ closing ++ rest) = ('/' :: '*' :: body ++ closing) ++
      rest := by simp
  rw [whole, length, List.take_left, List.drop_left]

theorem slash_open {body : List Char} (never : ¬ closing <:+: body) :
    slash ('*' :: body) = (⟨'/' :: '*' :: body, .fault .openComment⟩, []) := by
  simp only [slash, commentLength?_eq_none never]

theorem slash_mark {rest : List Char} (free : ∀ c ∈ rest.head?, c ∉ Kind.slash.extensions) :
    slash rest = (⟨['/'], .token .slash⟩, rest) := by
  cases rest with
  | nil => rfl
  | cons c rest =>
    have other := free c rfl
    simp only [Kind.extensions, List.mem_cons, List.not_mem_nil, or_false, not_or] at other
    unfold slash
    split <;> simp_all

theorem not_special_of_isDigit {c : Char} (digit : c.isDigit) : c ∉ specials := by
  have table : specials.all (fun d => !d.isDigit) := by decide
  intro mem
  have other := List.all_eq_true.1 table c mem
  rw [digit] at other
  cases other

theorem not_special_of_startsWord {c : Char} (letter : startsWord c) : c ∉ specials := by
  have table : specials.all (fun d => !startsWord d) := by decide
  intro mem
  have other := List.all_eq_true.1 table c mem
  rw [letter] at other
  cases other

theorem isDigit_eq_false_of_startsWord {c : Char} (letter : startsWord c) : c.isDigit = false := by
  rw [Bool.eq_false_iff]
  intro digit
  have bounds := toNat_of_isDigit digit
  rw [startsWord, Bool.or_eq_true, beq_iff_eq] at letter
  rcases letter with alpha | rfl
  · rcases Bool.or_eq_true_iff.1 alpha with upper | lower
    · have above : 65 ≤ c.toNat := (of_decide_eq_true upper).1
      omega
    · have above : 97 ≤ c.toNat := of_decide_eq_true (Bool.and_eq_true_iff.1 lower).1
      omega
  · simp at bounds

theorem starts_iff {c : Char} : Starts c ↔ c ∈ specials ∨ c.isDigit ∨ startsWord c := by
  constructor
  · intro starts
    cases starts with
    | blank mem => exact .inl (List.mem_append_left _ mem)
    | mark mem head =>
      have table : Kind.marks.all fun entry => entry.1.toList.head?.all (specials.contains ·) := by
        decide
      have special := List.all_eq_true.1 table _ mem
      rw [head] at special
      exact .inl (List.contains_iff_mem.1 special)
    | quote same =>
      subst same
      exact .inl (by decide)
    | digit digit => exact .inr (.inl digit)
    | letter letter => exact .inr (.inr letter)
  · rintro (mem | digit | letter)
    · have table : specials.all fun d =>
          d ∈ blanks ∨ d = '"' ∨ ∃ entry ∈ Kind.marks, entry.1.toList.head? = some d := by decide
      rcases of_decide_eq_true (List.all_eq_true.1 table c mem) with blank | quote |
        ⟨entry, mark, head⟩
      · exact .blank blank
      · exact .quote quote
      · exact .mark mark head
    · exact .digit digit
    · exact .letter letter

/-- A mark is cut off as far as it goes. -/
theorem first_of_mark {text rest : List Char} {kind : Kind}
    (mem : (String.ofList text, kind) ∈ Kind.marks) (free : ∀ c ∈ rest.head?, c ∉ kind.extensions)
    {c : Char} {cs : List Char} (same : text ++ rest = c :: cs) :
    first c cs = (⟨text, .token kind⟩, rest) := by
  have alone : ∀ d, (∃ other, comparison? d = some (kind, other)) → isBlank d = false →
      symbol? d = none → kind.extensions = ['='] → first d rest = (⟨[d], .token kind⟩, rest) := by
    rintro d ⟨other, comparison⟩ blank symbol only
    rw [only] at free
    cases rest with
    | nil => simp [first, blank, symbol, comparison]
    | cons e rest =>
      have other : e ≠ '=' := by simpa using free e rfl
      simp [first, blank, symbol, comparison, other]
  simp only [Kind.marks, List.mem_cons, Prod.mk.injEq, List.not_mem_nil, or_false] at mem
  rcases mem with ⟨text, rfl⟩ | ⟨text, rfl⟩ | ⟨text, rfl⟩ | ⟨text, rfl⟩ | ⟨text, rfl⟩ |
    ⟨text, rfl⟩ | ⟨text, rfl⟩ |
    ⟨text, rfl⟩ | ⟨text, rfl⟩ | ⟨text, rfl⟩ | ⟨text, rfl⟩ | ⟨text, rfl⟩ | ⟨text, rfl⟩ |
    ⟨text, rfl⟩ | ⟨text, rfl⟩ |
    ⟨text, rfl⟩ | ⟨text, rfl⟩ | ⟨text, rfl⟩ | ⟨text, rfl⟩
  all_goals
    cases String.ofList_inj.1 text
    cases same
  -- the marks that nothing extends, then those that an equals sign does, and the slash
  any_goals rfl
  any_goals exact alone _ ⟨_, rfl⟩ rfl rfl rfl
  exact slash_mark free

theorem symbol?_mem {c : Char} {kind : Kind} (symbol : symbol? c = some kind) :
    (String.ofList [c], kind) ∈ Kind.marks ∧ kind.extensions = [] := by
  unfold symbol? at symbol
  split at symbol <;> cases symbol <;> decide

theorem comparison?_mem {c : Char} {alone extended : Kind}
    (comparison : comparison? c = some (alone, extended)) :
    ((String.ofList [c], alone) ∈ Kind.marks ∧ alone.extensions = ['=']) ∧
      (String.ofList [c, '='], extended) ∈ Kind.marks ∧ extended.extensions = [] := by
  unfold comparison? at comparison
  split at comparison <;> cases comparison <;> decide

/-- A segment that fits, and the text that it is the start of. -/
def Opens (cut : Segment × List Char) (text : List Char) : Prop :=
  cut.1.Fits cut.2 ∧ cut.1.text ++ cut.2 = text

theorem slash_opens (cs : List Char) : Opens (slash cs) ('/' :: cs) := by
  cases cs with
  | nil =>
    rw [slash_mark (by simp)]
    exact ⟨.mark (by decide) (by simp), rfl⟩
  | cons c cs =>
    by_cases line : c = '/'
    · subst line
      refine ⟨.lineComment ?_ ?_, ?_⟩
      · intro mem
        have plain := List.mem_takeWhile_imp mem
        simp at plain
      · intro c head
        have stops := head?_dropWhile_eq_false head
        simpa using stops
      · simp [slash]
    · by_cases block : c = '*'
      · subst block
        by_cases closes : closing <:+: cs
        · obtain ⟨body, rest, rfl, first⟩ := exists_first_closing closes
          rw [slash_block first]
          exact ⟨.blockComment first, by simp⟩
        · rw [slash_open closes]
          exact ⟨.openComment closes, by simp⟩
      · have free : ∀ d ∈ (c :: cs).head?, d ∉ Kind.slash.extensions := by
          simp [Kind.extensions, line, block]
        rw [slash_mark free]
        exact ⟨.mark (by decide) free, rfl⟩

theorem quoted_opens (cs : List Char) : Opens (quoted cs) ('"' :: cs) := by
  by_cases closes : '"' ∈ cs
  · obtain ⟨body, rest, rfl, inside⟩ := List.eq_append_cons_of_mem closes
    rw [quoted_eq inside]
    have fits :
        Fits ⟨'"' :: (String.ofList body).toList ++ ['"'], .token (.string (String.ofList body))⟩
          rest :=
      .string (by rwa [String.toList_ofList])
    rw [String.toList_ofList] at fits
    exact ⟨fits, by simp⟩
  · rw [quoted_open closes]
    exact ⟨.openString closes, by simp⟩

theorem word_opens {c : Char} (letter : startsWord c) (cs : List Char) :
    Opens (word (c :: cs)) (c :: cs) := by
  refine ⟨?_, List.takeWhile_append_dropWhile⟩
  have longest := longest_word letter cs
  by_cases keyword :
    ∃ kind, (String.ofList ((c :: cs).takeWhile continuesWord), kind) ∈ Kind.keywords
  · obtain ⟨kind, mem⟩ := keyword
    rw [word, ofWord_of_mem mem]
    exact .keyword longest mem
  · rw [not_exists] at keyword
    rw [word, ofWord_of_forall_not_mem keyword]
    exact .identifier longest keyword

/-- The first segment of a text fits there. -/
theorem first_opens (c : Char) (cs : List Char) : Opens (first c cs) (c :: cs) := by
  unfold first
  split
  · next blank => exact ⟨.blank (by simpa [isBlank, blanks, or_assoc] using blank), rfl⟩
  next noBlank =>
  split
  · next kind symbol =>
    obtain ⟨mem, none⟩ := symbol?_mem symbol
    exact ⟨.mark mem (by simp [none]), rfl⟩
  next noSymbol =>
  split
  · next alone extended comparison =>
    obtain ⟨⟨mem, only⟩, memExtended, none⟩ := comparison?_mem comparison
    split
    · exact ⟨.mark memExtended (by simp [none]), rfl⟩
    · next other =>
      refine ⟨.mark mem ?_, rfl⟩
      intro d head
      rw [only, List.mem_singleton]
      rintro rfl
      obtain ⟨rest, same⟩ := List.head?_eq_some_iff.1 head
      exact other rest same
  next noComparison =>
  split
  · next same =>
    rw [beq_iff_eq.1 same]
    exact slash_opens cs
  next noSlash =>
  split
  · next same =>
    rw [beq_iff_eq.1 same]
    exact quoted_opens cs
  next noQuote =>
  split
  · next digit =>
    obtain ⟨text, value, rest, same, whole, longest, read⟩ := exists_numeral_eq digit cs
    rw [same]
    exact ⟨.number longest read, whole⟩
  next noDigit =>
  split
  · next letter => exact word_opens letter cs
  next noLetter =>
  refine ⟨.unexpected ?_, rfl⟩
  rw [starts_iff]
  rintro (mem | digit | letter)
  · have table : specials.all fun d =>
        isBlank d ∨ (symbol? d).isSome ∨ (comparison? d).isSome ∨ d = '/' ∨ d = '"' := by decide
    rcases of_decide_eq_true (List.all_eq_true.1 table c mem) with blank | symbol | comparison |
      slash | quote
    · exact noBlank blank
    · obtain ⟨kind, symbol⟩ := Option.isSome_iff_exists.1 symbol
      exact noSymbol kind symbol
    · obtain ⟨⟨alone, extended⟩, comparison⟩ := Option.isSome_iff_exists.1 comparison
      exact noComparison alone extended comparison
    · exact noSlash (beq_iff_eq.2 slash)
    · exact noQuote (beq_iff_eq.2 quote)
  · exact noDigit digit
  · exact noLetter letter

/-- What fits at the start of a text is its first segment. -/
theorem Fits.first_eq {segment : Segment} {rest : List Char} (fits : segment.Fits rest) {c : Char}
    {cs : List Char} (same : segment.text ++ rest = c :: cs) : first c cs = (segment, rest) := by
  have word : ∀ {text}, Longest IsWord text rest → text ++ rest = c :: cs →
      first c cs = (⟨text, .token (Kind.ofWord (String.ofList text))⟩, rest) := by
    intro text longest same
    obtain ⟨letter, continues⟩ := longest.form
    obtain ⟨rfl, rfl⟩ := List.cons.inj same
    obtain ⟨text, rest⟩ :=
      longest.eq_of_append_eq (longest_word letter _) List.takeWhile_append_dropWhile.symm
    rw [first_of_not_special (not_special_of_startsWord letter),
      if_neg (by simp [isDigit_eq_false_of_startsWord letter]), if_pos letter,
      Segment.word, ← text, ← rest]
  cases fits with
  | blank blank =>
    cases same
    simp only [blanks, List.mem_cons, List.not_mem_nil, or_false] at blank
    rcases blank with rfl | rfl | rfl | rfl <;> rfl
  | lineComment inside ends =>
    cases same
    exact slash_line inside ends
  | blockComment only =>
    cases same
    exact slash_block only rest
  | mark mem free => exact first_of_mark mem free same
  | @string value _ inside =>
    have body : '"' :: (value.toList ++ '"' :: rest) = c :: cs := by simpa using same
    cases body
    have cut := quoted_eq inside rest
    rw [String.ofList_toList] at cut
    exact cut
  | @number text _ value longest read =>
    have digit : c.isDigit := longest.form.head_isDigit same
    obtain ⟨other, otherValue, more, cut, whole, otherLongest, otherRead⟩ :=
      exists_numeral_eq digit cs
    obtain ⟨rfl, rfl⟩ := longest.eq_of_append_eq otherLongest (same.trans whole.symm)
    rw [read, Option.some.injEq] at otherRead
    rw [first_of_not_special (not_special_of_isDigit digit), if_pos digit, cut, otherRead]
  | keyword longest mem => rw [word longest same, ofWord_of_mem mem]
  | identifier longest other => rw [word longest same, ofWord_of_forall_not_mem other]
  | unexpected none =>
    cases same
    rw [starts_iff, not_or, not_or] at none
    rw [first_of_not_special none.1, if_neg none.2.1, if_neg none.2.2]
    rfl
  | openString inside =>
    rw [List.append_nil] at same
    cases same
    exact quoted_open inside
  | openComment never =>
    rw [List.append_nil] at same
    cases same
    exact slash_open never

theorem first_eq_iff {c : Char} {cs rest : List Char} {segment : Segment} :
    first c cs = (segment, rest) ↔ segment.Fits rest ∧ segment.text ++ rest = c :: cs := by
  constructor
  · intro same
    have opens := first_opens c cs
    rw [same] at opens
    exact opens
  · rintro ⟨fits, same⟩
    exact fits.first_eq same

end Segment

end Lox
