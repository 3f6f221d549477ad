import Lox.Proofs.Number.Rounding
import Mathlib.Data.List.Basic
import Mathlib.Data.List.TakeWhile

/-!
# The texts that denote numbers

Which texts a program may pass off as numbers, as a grammar: a decimal or a name, after an optional
sign and with blanks around.  A decimal denotes the floating-point number that is nearest to it,
however many digits it has.

* `Text.Trims`: a text without the blanks around it.
* `Numeral.IsNearest`: the floating-point number that the digits of a numeral denote.
* `Numeral.Denotes`: the grammar of numerals.
* `Numeral.read?_eq_some_iff`: what is read as a number is what denotes one.
-/

namespace Lox

/-! ## Blanks -/

namespace Text

/-- The code points of the characters with the Unicode property `White_Space`. -/
def blanks : List Nat :=
  [0x9, 0xA, 0xB, 0xC, 0xD, 0x20, 0x85, 0xA0, 0x1680, 0x2000, 0x2001, 0x2002, 0x2003,
    0x2004, 0x2005, 0x2006, 0x2007, 0x2008, 0x2009, 0x200A, 0x2028, 0x2029, 0x202F, 0x205F, 0x3000]

/-- The second text is the first without the blanks that it starts and ends with. -/
structure Trims (text core : List Char) : Prop where
  split : ∃ front back, text = front ++ (core ++ back) ∧ (∀ c ∈ front, c.toNat ∈ blanks) ∧
    ∀ c ∈ back, c.toNat ∈ blanks
  first : ∀ c, core.head? = some c → c.toNat ∉ blanks
  last : ∀ c, core.getLast? = some c → c.toNat ∉ blanks

theorem isBlank_iff {c : Char} : isBlank c ↔ c.toNat ∈ blanks := by
  simp only [isBlank, blanks, List.mem_cons, List.not_mem_nil, or_false, Bool.or_eq_true,
    Bool.and_eq_true, decide_eq_true_eq, beq_iff_eq]
  omega

section Spans

variable {p : Char → Bool}

theorem head?_dropWhile_eq_false {cs : List Char} {c : Char} (head : c ∈ (cs.dropWhile p).head?) :
    p c = false := by
  have stops := List.head?_dropWhile_not p cs
  rw [Option.mem_def.1 head] at stops
  exact stops

theorem takeWhile_of_stops {text rest : List Char} (all : ∀ c ∈ text, p c)
    (stops : ∀ c ∈ rest.head?, p c = false) : (text ++ rest).takeWhile p = text := by
  rw [List.takeWhile_append_of_pos all]
  cases rest with
  | nil => simp
  | cons c rest => simp [stops c rfl]

theorem dropWhile_of_stops {text rest : List Char} (all : ∀ c ∈ text, p c)
    (stops : ∀ c ∈ rest.head?, p c = false) : (text ++ rest).dropWhile p = rest := by
  rw [List.dropWhile_append_of_pos all]
  cases rest with
  | nil => simp
  | cons c rest => simp [stops c rfl]

end Spans

theorem dropWhile_isBlank {front rest : List Char} (blank : ∀ c ∈ front, c.toNat ∈ blanks)
    (first : ∀ c, rest.head? = some c → c.toNat ∉ blanks) :
    (front ++ rest).dropWhile isBlank = rest := by
  refine dropWhile_of_stops (fun c mem => isBlank_iff.2 (blank c mem)) ?_
  intro c head
  exact Bool.eq_false_iff.2 (mt isBlank_iff.1 (first c head))

theorem exists_dropWhile_isBlank (text : List Char) :
    ∃ front rest, text = front ++ rest ∧ (∀ c ∈ front, c.toNat ∈ blanks) ∧
      (∀ c, rest.head? = some c → c.toNat ∉ blanks) ∧ text.dropWhile isBlank = rest := by
  refine ⟨text.takeWhile isBlank, text.dropWhile isBlank,
    List.takeWhile_append_dropWhile.symm, ?_, ?_, rfl⟩
  · intro c mem
    exact isBlank_iff.1 (List.mem_takeWhile_imp mem)
  · intro c head blank
    rw [← isBlank_iff, head?_dropWhile_eq_false head] at blank
    cases blank

theorem trim_eq_iff {text core : List Char} : trim text = core ↔ Trims text core := by
  constructor
  · rintro rfl
    obtain ⟨front, rest, split, blankFront, first, dropped⟩ := exists_dropWhile_isBlank text
    obtain ⟨back, kept, splitRest, blankBack, last, droppedRest⟩ :=
      exists_dropWhile_isBlank rest.reverse
    have rest_eq : rest = kept.reverse ++ back.reverse := by
      rw [← List.reverse_append, ← splitRest, List.reverse_reverse]
    have trimmed : trim text = kept.reverse := by rw [trim, dropped, droppedRest]
    rw [trimmed]
    refine ⟨⟨front, back.reverse, by rw [split, rest_eq], blankFront, ?_⟩, ?_, ?_⟩
    · intro c mem
      exact blankBack c (List.mem_reverse.1 mem)
    · intro c head
      apply first
      rw [rest_eq, List.head?_append, head]
      rfl
    · intro c head
      rw [List.getLast?_reverse] at head
      exact last c head
  · rintro ⟨⟨front, back, rfl, blankFront, blankBack⟩, first, last⟩
    have blankReverse : ∀ c ∈ back.reverse, c.toNat ∈ blanks := by
      intro c mem
      exact blankBack c (List.mem_reverse.1 mem)
    have lastReverse : ∀ c, core.reverse.head? = some c → c.toNat ∉ blanks := by
      intro c head
      rw [List.head?_reverse] at head
      exact last c head
    have kept := dropWhile_isBlank blankReverse lastReverse
    rcases core.eq_nil_or_concat with rfl | ⟨inside, final, same⟩
    · -- Nothing but blanks, so that the first removal leaves nothing.
      have all : ∀ c ∈ front ++ back, c.toNat ∈ blanks := by
        intro c mem
        rcases List.mem_append.1 mem with mem | mem
        · exact blankFront c mem
        · exact blankBack c mem
      have none : (front ++ back ++ []).dropWhile isBlank = [] := dropWhile_isBlank all (by simp)
      rw [List.append_nil] at none
      rw [List.nil_append, trim, none]
      rfl
    · have head : ∀ c, (core ++ back).head? = some c → c.toNat ∉ blanks := by
        intro c found
        apply first
        rw [← found, List.head?_append_of_ne_nil core (by simp [same])]
      rw [trim, dropWhile_isBlank blankFront head, List.reverse_append, kept, List.reverse_reverse]

theorem Trims.self {text : List Char} (solid : ∀ c ∈ text, c.toNat ∉ blanks) : Trims text text where
  split := ⟨[], [], by simp, by simp, by simp⟩
  first c head := solid c (List.mem_of_head? head)
  last c last := solid c (List.mem_of_getLast? last)

end Text

/-! ## Numerals -/

namespace Numeral

/-- What the digits of an exponent amount to.  Once it is `2 ^ 16` or more, the digits that follow
do not count. -/
inductive Amounts : List Char → Nat → Prop where
  | nil : Amounts [] 0
  | counted {digits : List Char} {amount : Nat} {c : Char} : Amounts digits amount →
    amount < 2 ^ 16 → Amounts (digits ++ [c]) (10 * amount + (c.toNat - '0'.toNat))
  | passed {digits : List Char} {amount : Nat} {c : Char} : Amounts digits amount →
    2 ^ 16 ≤ amount → Amounts (digits ++ [c]) amount

/-- The exponent of a numeral, which may be left out. -/
inductive Exponent : List Char → Int → Prop where
  | none : Exponent [] 0
  | plain {mark : Char} {digits : List Char} {amount : Nat} : mark ∈ ['e', 'E'] → digits ≠ [] →
    (∀ c ∈ digits, c.isDigit) → Amounts digits amount → Exponent (mark :: digits) amount
  | plus {mark : Char} {digits : List Char} {amount : Nat} : mark ∈ ['e', 'E'] → digits ≠ [] →
    (∀ c ∈ digits, c.isDigit) → Amounts digits amount → Exponent (mark :: '+' :: digits) amount
  | minus {mark : Char} {digits : List Char} {amount : Nat} : mark ∈ ['e', 'E'] → digits ≠ [] →
    (∀ c ∈ digits, c.isDigit) → Amounts digits amount → Exponent (mark :: '-' :: digits) (-amount)

/-- The floating-point number is nearest to the decimal with the given digits before and after the
point, times `10 ^ shift`. -/
def IsNearest (whole fraction : List Char) (shift : Int) (x : Float) : Prop :=
  Binary64.Rounds (Nat.ofDigitChars 10 (whole ++ fraction) 0 * 10 ^ (shift - fraction.length))
    (Binary64.ofFloat x)

/-- A decimal with an optional point and exponent, and with a digit before or after the point. -/
inductive IsDecimal : List Char → Float → Prop where
  | integer {whole exponent : List Char} {shift : Int} {x : Float} : whole ≠ [] →
    (∀ c ∈ whole, c.isDigit) → Exponent exponent shift → IsNearest whole [] shift x →
    IsDecimal (whole ++ exponent) x
  | pointed {whole fraction exponent : List Char} {shift : Int} {x : Float} :
    whole ++ fraction ≠ [] → (∀ c ∈ whole, c.isDigit) → (∀ c ∈ fraction, c.isDigit) →
    Exponent exponent shift → IsNearest whole fraction shift x →
    IsDecimal (whole ++ '.' :: (fraction ++ exponent)) x

/-- The names of numbers. -/
def names : List (List Char × Binary64) :=
  [("inf".toList, .infinity false), ("infinity".toList, .infinity false), ("nan".toList, .nan)]

/-- The numerals without a sign.  A name may be written in any case. -/
inductive Unsigned : List Char → Float → Prop where
  | decimal {cs : List Char} {x : Float} : IsDecimal cs x → Unsigned cs x
  | name {cs : List Char} {x : Float} : (cs.map Char.toLower, Binary64.ofFloat x) ∈ names →
    Unsigned cs x

/-- The numerals. -/
inductive Signed : List Char → Float → Prop where
  | plain {cs : List Char} {x : Float} : Unsigned cs x → Signed cs x
  | plus {cs : List Char} {x : Float} : Unsigned cs x → Signed ('+' :: cs) x
  | minus {cs : List Char} {x : Float} : Unsigned cs x → Signed ('-' :: cs) (-x)

/-- The text, without the blanks around it, is a numeral of the number. -/
def Denotes (text : String) (x : Float) : Prop :=
  ∃ core, Text.Trims text.toList core ∧ Signed core x

/-! ## Reading numerals -/

theorem mem_marks_iff {mark : Char} : mark ∈ ['e', 'E'] ↔ (mark == 'e' || mark == 'E') = true := by
  simp

theorem exponentValue_concat (digits : List Char) (c : Char) :
    exponentValue (digits ++ [c]) =
      if exponentValue digits < 2 ^ 16 then 10 * exponentValue digits + (c.toNat - '0'.toNat)
      else exponentValue digits := by
  rw [exponentValue, List.foldl_append]
  rfl

theorem amounts_iff {digits : List Char} {amount : Nat} :
    Amounts digits amount ↔ amount = exponentValue digits := by
  constructor
  · intro amounts
    induction amounts with
    | nil => rfl
    | counted _ small ih => rw [exponentValue_concat, ← ih, if_pos small]
    | passed _ large ih => rw [exponentValue_concat, ← ih, if_neg large.not_gt]
  · rintro rfl
    induction digits using List.reverseRecOn with
    | nil => exact .nil
    | append_singleton digits c ih =>
      rw [exponentValue_concat]
      split
      next small => exact .counted ih small
      next large => exact .passed ih (Nat.le_of_not_lt large)

theorem exponentOf?_eq_some_iff {negative : Bool} {digits : List Char} {shift : Int} :
    exponentOf? negative digits = some shift ↔ digits ≠ [] ∧ (∀ c ∈ digits, c.isDigit) ∧
      shift = if negative then -(exponentValue digits : Int) else exponentValue digits := by
  unfold exponentOf?
  by_cases proper : digits ≠ [] ∧ ∀ c ∈ digits, c.isDigit
  · have kept : (digits.isEmpty || !digits.all Char.isDigit) = false := by simpa using proper
    rw [kept, if_neg Bool.false_ne_true]
    constructor
    · intro read
      cases negative <;> exact ⟨proper.1, proper.2, (Option.some.inj read).symm⟩
    · rintro ⟨-, -, rfl⟩
      cases negative <;> rfl
  · have refused : (digits.isEmpty || !digits.all Char.isDigit) = true := by
      simpa [or_iff_not_imp_left] using proper
    simp only [refused, ↓reduceIte, reduceCtorEq, false_iff]
    rintro ⟨some, all, -⟩
    exact proper ⟨some, all⟩

theorem exponent?_eq_some_iff {cs : List Char} {shift : Int} :
    exponent? cs = some shift ↔ Exponent cs shift := by
  constructor
  · intro read
    cases cs with
    | nil =>
      cases read
      exact .none
    | cons mark cs =>
      simp only [exponent?] at read
      split at read
      next isMark =>
        have isMark := mem_marks_iff.2 isMark
        split at read
        all_goals obtain ⟨some, all, rfl⟩ := exponentOf?_eq_some_iff.1 read
        · exact .minus isMark some all (amounts_iff.2 rfl)
        · exact .plus isMark some all (amounts_iff.2 rfl)
        · exact .plain isMark some all (amounts_iff.2 rfl)
      next => cases read
  · intro exponent
    cases exponent with
    | none => rfl
    | plain isMark some all amounts =>
      obtain rfl := amounts_iff.1 amounts
      simp only [exponent?, mem_marks_iff.1 isMark, ↓reduceIte]
      -- A digit is no sign.
      split
      · exact absurd (all '-' List.mem_cons_self) (by decide)
      · exact absurd (all '+' List.mem_cons_self) (by decide)
      · exact exponentOf?_eq_some_iff.2 ⟨some, all, rfl⟩
    | plus isMark some all amounts =>
      obtain rfl := amounts_iff.1 amounts
      simp only [exponent?, mem_marks_iff.1 isMark, ↓reduceIte]
      exact exponentOf?_eq_some_iff.2 ⟨some, all, rfl⟩
    | minus isMark some all amounts =>
      obtain rfl := amounts_iff.1 amounts
      simp only [exponent?, mem_marks_iff.1 isMark, ↓reduceIte]
      exact exponentOf?_eq_some_iff.2 ⟨some, all, rfl⟩

theorem Exponent.head_not_isDigit {cs : List Char} {shift : Int} (exponent : Exponent cs shift) :
    ∀ c ∈ cs.head?, c.isDigit = false := by
  intro c head
  cases exponent with
  | none => cases head
  | plain isMark _ _ _ | plus isMark _ _ _ | minus isMark _ _ _ =>
    cases head
    rcases List.mem_pair.1 isMark with rfl | rfl
    · rfl
    · rfl

/-- The first character of an exponent is no point either. -/
theorem Exponent.ne_point {cs rest : List Char} {shift : Int} (exponent : Exponent cs shift) :
    cs ≠ '.' :: rest := by
  rintro rfl
  cases exponent with
  | plain isMark _ _ _ | plus isMark _ _ _ | minus isMark _ _ _ => exact absurd isMark (by decide)

theorem isNearest_iff {whole fraction : List Char} (isWhole : ∀ c ∈ whole, c.isDigit)
    (isFraction : ∀ c ∈ fraction, c.isDigit) {shift : Int} {x : Float} :
    IsNearest whole fraction shift x ↔ x = (decimal whole fraction shift).toFloat := by
  have digits : ∀ c ∈ whole ++ fraction, c.isDigit := by
    intro c mem
    exact (List.mem_append.1 mem).elim (isWhole c) (isFraction c)
  have rounds : IsNearest whole fraction shift (decimal whole fraction shift).toFloat :=
    rounds_ofDigits digits (shift - fraction.length)
  constructor
  · intro nearest
    exact Binary64.ofFloat_inj (nearest.unique (by positivity) rounds)
  · rintro rfl
    exact rounds

theorem isDigit_of_mem_takeWhile (cs : List Char) : ∀ c ∈ cs.takeWhile Char.isDigit, c.isDigit :=
  fun _ mem => List.mem_takeWhile_imp mem

theorem isDecimal_of_unsigned? {cs : List Char} {x : Float} (read : unsigned? cs = some x) :
    IsDecimal cs x := by
  have whole : cs = cs.takeWhile Char.isDigit ++ cs.dropWhile Char.isDigit :=
    List.takeWhile_append_dropWhile.symm
  rw [whole]
  simp only [unsigned?] at read
  split at read
  next after point =>
    split at read
    next => cases read
    next some =>
      obtain ⟨shift, exponent, rfl⟩ := Option.map_eq_some_iff.1 read
      have digits : cs.takeWhile Char.isDigit ++ after.takeWhile Char.isDigit ≠ [] := by
        simpa [List.append_eq_nil_iff] using some
      have isWhole := isDigit_of_mem_takeWhile cs
      have isFraction := isDigit_of_mem_takeWhile after
      have shape := IsDecimal.pointed digits isWhole isFraction (exponent?_eq_some_iff.1 exponent)
        ((isNearest_iff isWhole isFraction).2 rfl)
      rw [List.takeWhile_append_dropWhile, ← point] at shape
      exact shape
  next =>
    split at read
    next => cases read
    next some =>
      obtain ⟨shift, exponent, rfl⟩ := Option.map_eq_some_iff.1 read
      have digits : cs.takeWhile Char.isDigit ≠ [] := by
        simpa [List.append_eq_nil_iff] using some
      have isWhole := isDigit_of_mem_takeWhile cs
      exact .integer digits isWhole (exponent?_eq_some_iff.1 exponent)
        ((isNearest_iff isWhole (List.forall_mem_nil _)).2 rfl)

theorem IsDecimal.unsigned?_eq {cs : List Char} {x : Float} (isDecimal : IsDecimal cs x) :
    unsigned? cs = some x := by
  cases isDecimal with
  | integer some isWhole isExponent nearest =>
    obtain rfl := (isNearest_iff isWhole (List.forall_mem_nil _)).1 nearest
    have stops := isExponent.head_not_isDigit
    simp only [unsigned?, Text.takeWhile_of_stops isWhole stops,
      Text.dropWhile_of_stops isWhole stops]
    split
    next => exact absurd rfl isExponent.ne_point
    next =>
      rw [List.isEmpty_eq_false_iff.2 some, exponent?_eq_some_iff.2 isExponent]
      rfl
  | @pointed whole fraction exponent _ _ some isWhole isFraction isExponent nearest =>
    obtain rfl := (isNearest_iff isWhole isFraction).1 nearest
    have point : ∀ c ∈ ('.' :: (fraction ++ exponent)).head?, c.isDigit = false := by
      intro c head
      cases head
      rfl
    have stops := isExponent.head_not_isDigit
    have digits : (whole.isEmpty && fraction.isEmpty) = false := by
      simpa [List.append_eq_nil_iff] using some
    simp only [unsigned?, Text.takeWhile_of_stops isWhole point,
      Text.dropWhile_of_stops isWhole point,
      Text.takeWhile_of_stops isFraction stops, Text.dropWhile_of_stops isFraction stops,
      exponent?_eq_some_iff.2 isExponent, digits]
    rfl

theorem IsDecimal.exists_head {cs : List Char} {x : Float} (isDecimal : IsDecimal cs x) :
    ∃ c rest, cs = c :: rest ∧ (c.isDigit ∨ c = '.') := by
  cases isDecimal with
  | @integer whole _ _ _ some isWhole _ _ =>
    cases whole with
    | nil => exact absurd rfl some
    | cons c whole => exact ⟨c, _, rfl, .inl (isWhole c List.mem_cons_self)⟩
  | @pointed whole _ _ _ _ _ isWhole _ _ _ =>
    cases whole with
    | nil => exact ⟨'.', _, rfl, .inr rfl⟩
    | cons c whole => exact ⟨c, _, rfl, .inl (isWhole c List.mem_cons_self)⟩

theorem toLower_mem_of_name {c : Char} {cs : List Char} {b : Binary64}
    (isName : ((c :: cs).map Char.toLower, b) ∈ names) : c.toLower = 'i' ∨ c.toLower = 'n' := by
  have first : ∀ name : List Char, name ∈ names.map Prod.fst →
      name.head? = some 'i' ∨ name.head? = some 'n' := by decide
  simpa using first _ (List.mem_map_of_mem isName)

theorem toLower_of_isDigit {c : Char} (digit : c.isDigit) : c.toLower = c := by
  simp only [Char.isDigit, Bool.and_eq_true, decide_eq_true_eq] at digit
  unfold Char.toLower
  split
  next upper =>
    have above : (65 : UInt32) ≤ c.val := upper.1
    exact absurd (UInt32.le_trans above digit.2) (by decide)
  next => rfl

/-- No decimal is a name, and neither starts with a sign. -/
theorem IsDecimal.not_name {cs : List Char} {x : Float} {b : Binary64}
    (isDecimal : IsDecimal cs x) : (cs.map Char.toLower, b) ∉ names := by
  intro isName
  obtain ⟨c, rest, rfl, digit | rfl⟩ := isDecimal.exists_head
  · have letter := toLower_mem_of_name isName
    rw [toLower_of_isDigit digit] at letter
    rcases letter with rfl | rfl
    · cases digit
    · cases digit
  · exact absurd (toLower_mem_of_name isName) (by decide)

theorem Unsigned.head_not_sign {cs : List Char} {x : Float} (unsigned : Unsigned cs x) :
    ∀ c ∈ cs.head?, c ≠ '-' ∧ c ≠ '+' := by
  intro c head
  obtain ⟨rest, rfl⟩ := List.head?_eq_some_iff.1 head
  constructor
  all_goals
    rintro rfl
    cases unsigned with
    | decimal isDecimal =>
      obtain ⟨c, rest, same, digit⟩ := isDecimal.exists_head
      cases same
      exact absurd digit (by decide)
    | name isName => exact absurd (toLower_mem_of_name isName) (by decide)

theorem magnitude?_eq_some_iff {cs : List Char} {x : Float} :
    magnitude? cs = some x ↔ Unsigned cs x := by
  have spelled : ∀ name : String, String.ofList (cs.map Char.toLower) = name →
      cs.map Char.toLower = name.toList := by
    rintro name rfl
    exact String.toList_ofList.symm
  constructor
  · intro read
    unfold magnitude? at read
    split at read
    next same =>
      cases read
      exact .name (by rw [spelled _ same, Binary64.ofFloat_overflow]; decide)
    next same =>
      cases read
      exact .name (by rw [spelled _ same, Binary64.ofFloat_overflow]; decide)
    next same =>
      cases read
      exact .name (by rw [spelled _ same, Binary64.ofFloat_nan]; decide)
    next => exact .decimal (isDecimal_of_unsigned? read)
  · intro unsigned
    cases unsigned with
    | decimal isDecimal =>
      have other : ∀ name : String, name.toList ∈ names.map Prod.fst →
          String.ofList (cs.map Char.toLower) ≠ name := by
        intro name mem same
        rw [← spelled name same] at mem
        obtain ⟨⟨_, value⟩, isName, rfl⟩ := List.mem_map.1 mem
        exact isDecimal.not_name isName
      unfold magnitude?
      split
      next same => exact absurd same (other _ (by decide))
      next same => exact absurd same (other _ (by decide))
      next same => exact absurd same (other _ (by decide))
      next => exact isDecimal.unsigned?_eq
    | name isName =>
      simp only [names, List.mem_cons, List.not_mem_nil, or_false, Prod.mk.injEq] at isName
      rw [← Binary64.ofFloat_overflow, ← Binary64.ofFloat_nan] at isName
      rcases isName with ⟨same, number⟩ | ⟨same, number⟩ | ⟨same, number⟩
      all_goals
        rw [magnitude?, same, String.ofList_toList, Binary64.ofFloat_inj number]
        rfl

/-- What is read as a number is what denotes one. -/
theorem read?_eq_some_iff {text : String} {x : Float} : read? text = some x ↔ Denotes text x := by
  have trims : Text.Trims text.toList (Text.trim text.toList) := Text.trim_eq_iff.1 rfl
  constructor
  · intro read
    refine ⟨_, trims, ?_⟩
    unfold read? at read
    split at read
    next cs same =>
      obtain ⟨y, readUnsigned, rfl⟩ := Option.map_eq_some_iff.1 read
      rw [same]
      exact .minus (magnitude?_eq_some_iff.1 readUnsigned)
    next cs same =>
      rw [same]
      exact .plus (magnitude?_eq_some_iff.1 read)
    next => exact .plain (magnitude?_eq_some_iff.1 read)
  · rintro ⟨core, trimsCore, signed⟩
    unfold read?
    rw [Text.trim_eq_iff.2 trimsCore]
    cases signed with
    | plus unsigned => exact magnitude?_eq_some_iff.2 unsigned
    | minus unsigned =>
      simp only [magnitude?_eq_some_iff.2 unsigned]
      rfl
    | plain unsigned =>
      split
      · exact absurd rfl (unsigned.head_not_sign '-' rfl).1
      · exact absurd rfl (unsigned.head_not_sign '+' rfl).2
      · exact magnitude?_eq_some_iff.2 unsigned

end Numeral

end Lox
