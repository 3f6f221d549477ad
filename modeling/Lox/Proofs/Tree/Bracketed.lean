import Lox.Proofs.Token.Fits

/-!
# Trees in brackets

A tree of words is written with each node in brackets: its name first, then its children with a
blank before each.  The text tells the tree if no word has a blank or a bracket in it.  It even
tells where the tree ends in a longer text, and that is what the induction over trees needs.

* `Bracketed.Solid.text_append_inj`: what a text starts with is the text of at most one tree.
-/

namespace Lox

/-- A word alone, or a word with trees below it. -/
inductive Bracketed where
  | word (text : String)
  | node (name : String) (children : List Bracketed)

namespace Bracketed

mutual

/-- The text of a tree. -/
def text : Bracketed → List Char
  | .word text => text.toList
  | .node name children => '(' :: name.toList ++ textAll children ++ [')']

/-- The texts of trees, with a blank before each. -/
def textAll : List Bracketed → List Char
  | [] => []
  | child :: children => ' ' :: child.text ++ textAll children

end

/-- The characters that words are made of. -/
def isSolid (c : Char) : Bool := c != ' ' && c != '(' && c != ')'

/-- Characters of a kind to which neither the blank nor the brackets belong. -/
theorem isSolid_of {isKind : Char → Bool} (blank : isKind ' ' = false)
    (opening : isKind '(' = false) (closing : isKind ')' = false) {c : Char} (among : isKind c) :
    isSolid c := by
  rw [isSolid, Bool.and_eq_true, Bool.and_eq_true, bne_iff_ne, bne_iff_ne, bne_iff_ne]
  refine ⟨⟨?_, ?_⟩, ?_⟩
  all_goals
    rintro rfl
    simp_all

/-- All the words of the tree are words. -/
inductive Solid : Bracketed → Prop where
  | word {text : String} : (∀ c ∈ text.toList, isSolid c) → Solid (.word text)
  | node {name : String} {children : List Bracketed} : (∀ c ∈ name.toList, isSolid c) →
    (∀ child ∈ children, Solid child) → Solid (.node name children)

/-- What can follow a tree. -/
def Ended (rest : List Char) : Prop := ∀ c ∈ rest.head?, c = ' ' ∨ c = ')'

theorem Ended.not_isSolid {rest : List Char} (ended : Ended rest) :
    ∀ c ∈ rest.head?, isSolid c = false := by
  intro c head
  rcases ended c head with rfl | rfl <;> decide

theorem ended_textAll (children : List Bracketed) (rest : List Char) :
    Ended (textAll children ++ ')' :: rest) := by
  cases children with
  | nil =>
    rintro c ⟨⟩
    exact .inr rfl
  | cons child children =>
    rintro c ⟨⟩
    exact .inl rfl

/-- Words that end somewhere in a text are told by the text. -/
theorem word_append_inj {word other : String} (solid : ∀ c ∈ word.toList, isSolid c)
    (solidOther : ∀ c ∈ other.toList, isSolid c) {rest more : List Char} (ended : Ended rest)
    (endedMore : Ended more) (same : word.toList ++ rest = other.toList ++ more) :
    word = other ∧ rest = more := by
  have words := congrArg (List.takeWhile isSolid) same
  rw [Text.takeWhile_of_stops solid ended.not_isSolid,
    Text.takeWhile_of_stops solidOther endedMore.not_isSolid] at words
  rw [words] at same
  exact ⟨String.toList_inj.1 words, List.append_cancel_left same⟩

/-- A text that starts with a word does not start with a bracket. -/
theorem word_append_ne {word : String} (solid : ∀ c ∈ word.toList, isSolid c) {rest : List Char}
    (ended : Ended rest) (more : List Char) : word.toList ++ rest ≠ '(' :: more := by
  intro same
  generalize word.toList = cs at solid same
  cases cs with
  | nil =>
    subst same
    rcases ended '(' rfl with equal | equal <;> cases equal
  | cons c cs =>
    cases same
    exact absurd (solid '(' List.mem_cons_self) (by decide)

/-- A text that starts with the tree starts with no other one. -/
def IsTold (tree : Bracketed) : Prop :=
  ∀ {other : Bracketed} {rest more : List Char}, other.Solid → Ended rest → Ended more →
    tree.text ++ rest = other.text ++ more → tree = other ∧ rest = more

theorem textAll_append_inj {children others : List Bracketed}
    (told : ∀ child ∈ children, child.IsTold) (solid : ∀ other ∈ others, other.Solid)
    {rest more : List Char}
    (same : textAll children ++ ')' :: rest = textAll others ++ ')' :: more) :
    children = others ∧ rest = more := by
  induction children generalizing others with
  | nil =>
    cases others with
    | nil =>
      cases same
      exact ⟨rfl, rfl⟩
    | cons other others => cases same
  | cons child children ih =>
    cases others with
    | nil => cases same
    | cons other others =>
      simp only [textAll, List.cons_append, List.append_assoc, List.cons.injEq, true_and] at same
      obtain ⟨toldChild, toldChildren⟩ := List.forall_mem_cons.1 told
      obtain ⟨solidOther, solidOthers⟩ := List.forall_mem_cons.1 solid
      obtain ⟨rfl, behind⟩ :=
        toldChild solidOther (ended_textAll children rest) (ended_textAll others more) same
      obtain ⟨rfl, rfl⟩ := ih toldChildren solidOthers behind
      exact ⟨rfl, rfl⟩

theorem text_node_append (name : String) (children : List Bracketed) (rest : List Char) :
    (node name children).text ++ rest =
      '(' :: (name.toList ++ (textAll children ++ ')' :: rest)) := by
  simp [text]

/-- What a text starts with is the text of at most one tree. -/
theorem Solid.text_append_inj {tree : Bracketed} (solid : tree.Solid) : tree.IsTold := by
  induction solid with
  | @word text solid =>
    intro other rest more solidOther ended endedMore same
    cases solidOther with
    | @word textOther solidOther =>
      obtain ⟨rfl, rest⟩ := word_append_inj solid solidOther ended endedMore same
      exact ⟨rfl, rest⟩
    | node _ _ =>
      rw [text_node_append] at same
      exact absurd same (word_append_ne solid ended _)
  | @node name children solid _ ih =>
    intro other rest more solidOther ended endedMore same
    rw [text_node_append] at same
    cases solidOther with
    | word solidOther => exact absurd same.symm (word_append_ne solidOther endedMore _)
    | @node nameOther childrenOther solidOther solidChildren =>
      rw [text_node_append, List.cons_inj_right] at same
      obtain ⟨rfl, behind⟩ :=
        word_append_inj solid solidOther (ended_textAll children rest)
          (ended_textAll childrenOther more) same
      obtain ⟨rfl, rfl⟩ := textAll_append_inj ih solidChildren behind
      exact ⟨rfl, rfl⟩

theorem Solid.text_inj {tree other : Bracketed} (solid : tree.Solid) (solidOther : other.Solid)
    (same : tree.text = other.text) : tree = other := by
  have ended : Ended [] := by
    rintro c ⟨⟩
  exact (solid.text_append_inj solidOther ended ended (congrArg (· ++ []) same)).1

end Bracketed

end Lox
