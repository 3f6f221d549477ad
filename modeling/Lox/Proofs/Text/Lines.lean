import Mathlib.Data.List.TakeWhile
import Mathlib.Tactic.SplitIfs
import Lox.Machine.Console

/-!
# Texts as lines and as bytes

A text falls into lines, each of which ends in a line end, except perhaps the last.  Lines that do
so are the lines of the text that they make up, so a line can be taken out of a text and leaves the
others as they are.  In the encoding of a text, the byte of a line end stands for nothing else: the
lines of the encoding are the encoded lines of the text.

* `Source.Cut`: the pieces end where a list is cut.
* `Source.ofBytes_toUTF8`: the input that a text is encoded as has the lines of the text.
* `Source.exists_of_linesOf_append`: a text without one of its lines.
-/

namespace Lox.Source

/-! ## Pieces -/

section

variable {α : Type} {separator : α}

/-- Each piece ends in the separator and has none before its end, except that the last may go
without. -/
inductive Cut (separator : α) : List (List α) → Prop where
  | nil : Cut separator []
  | last {piece : List α} : separator ∉ piece → piece ≠ [] → Cut separator [piece]
  | cons {piece : List α} {rest : List (List α)} :
      separator ∉ piece → Cut separator rest → Cut separator ((piece ++ [separator]) :: rest)

/-- What is left when a piece is taken out is cut at the same places. -/
theorem Cut.erase {piece : List α} {before after : List (List α)}
    (cut : Cut separator (before ++ piece :: after)) : Cut separator (before ++ after) := by
  induction before with
  | nil =>
    cases cut with
    | last => exact .nil
    | cons _ rest => exact rest
  | cons first before ih =>
    generalize others : before ++ piece :: after = rest at cut ih
    rw [List.cons_append, others] at cut
    cases cut with
    | last => exact absurd others (by simp)
    | cons unbroken cut => exact .cons unbroken (ih cut)

theorem Cut.append_left {before after : List (List α)} (cut : Cut separator (before ++ after)) :
    Cut separator before := by
  induction after with
  | nil => rwa [List.append_nil] at cut
  | cons piece after ih => exact ih cut.erase

/-- Every list can be cut. -/
theorem exists_cut (separator : α) (list : List α) :
    ∃ parts, parts.flatten = list ∧ Cut separator parts := by
  induction list with
  | nil => exact ⟨[], rfl, .nil⟩
  | cons a list ih =>
    obtain ⟨parts, rfl, cut⟩ := ih
    by_cases same : a = separator
    · subst same
      exact ⟨([] ++ [a]) :: parts, rfl, .cons List.not_mem_nil cut⟩
    · have longer : ∀ {piece : List α}, separator ∉ piece → separator ∉ a :: piece := by
        intro piece unbroken mem
        exact (List.mem_cons.1 mem).elim (fun other => same other.symm) unbroken
      cases cut with
      | nil => exact ⟨[[a]], rfl, .last (longer List.not_mem_nil) (List.cons_ne_nil a [])⟩
      | @last piece unbroken _ =>
        exact ⟨[a :: piece], rfl, .last (longer unbroken) (List.cons_ne_nil a piece)⟩
      | @cons piece rest unbroken cut =>
        exact ⟨(a :: piece ++ [separator]) :: rest, rfl, .cons (longer unbroken) cut⟩

variable [BEq α] [LawfulBEq α]

theorem bne_of_unbroken {piece : List α} (unbroken : separator ∉ piece) :
    ∀ a ∈ piece, (a != separator) = true := by
  intro a mem
  exact bne_iff_ne.2 fun same => unbroken (same ▸ mem)

theorem piecesUpTo_flatten {parts : List (List α)} (cut : Cut separator parts) {budget : Nat}
    (enough : parts.flatten.length ≤ budget) :
    piecesUpTo separator budget parts.flatten = parts := by
  induction cut generalizing budget with
  | nil => cases budget <;> rfl
  | @last piece unbroken nonempty =>
    rw [List.flatten_singleton] at enough ⊢
    have positive := List.length_pos_iff.2 nonempty
    obtain ⟨budget, rfl⟩ : ∃ fewer, budget = fewer + 1 := ⟨budget - 1, by omega⟩
    have taken : piece.takeWhile (· != separator) = piece :=
      List.takeWhile_eq_self_iff.2 (bne_of_unbroken unbroken)
    have dropped : piece.dropWhile (· != separator) = [] :=
      List.dropWhile_eq_nil_iff.2 (bne_of_unbroken unbroken)
    rw [piecesUpTo, taken, dropped]
    exact nonempty
  | @cons piece rest unbroken cut ih =>
    rw [List.flatten_cons, List.append_assoc, List.singleton_append] at enough ⊢
    rw [List.length_append, List.length_cons] at enough
    obtain ⟨budget, rfl⟩ : ∃ fewer, budget = fewer + 1 := ⟨budget - 1, by omega⟩
    have taken : (piece ++ separator :: rest.flatten).takeWhile (· != separator) = piece := by
      rw [List.takeWhile_append_of_pos (bne_of_unbroken unbroken),
        List.takeWhile_cons_of_neg (by simp), List.append_nil]
    have dropped : (piece ++ separator :: rest.flatten).dropWhile (· != separator) =
        separator :: rest.flatten := by
      rw [List.dropWhile_append_of_pos (bne_of_unbroken unbroken),
        List.dropWhile_cons_of_neg (by simp)]
    rw [piecesUpTo, taken, dropped]
    · exact congrArg _ (ih (by omega))
    · simp

/-- Pieces that end where a list is cut are its pieces. -/
theorem pieces_flatten {parts : List (List α)} (cut : Cut separator parts) :
    pieces separator parts.flatten = parts :=
  piecesUpTo_flatten cut (Nat.le_refl _)

theorem flatten_pieces (separator : α) (list : List α) :
    (pieces separator list).flatten = list := by
  obtain ⟨parts, rfl, cut⟩ := exists_cut separator list
  rw [pieces_flatten cut]

theorem cut_pieces (separator : α) (list : List α) : Cut separator (pieces separator list) := by
  obtain ⟨parts, rfl, cut⟩ := exists_cut separator list
  rw [pieces_flatten cut]
  exact cut

end

/-! ## Encoded texts -/

theorem fromUTF8?_toUTF8 (text : String) : String.fromUTF8? text.toUTF8 = some text :=
  dif_pos text.isValidUTF8

/-- The bytes of a text. -/
def encoded (chars : List Char) : List UInt8 := chars.flatMap String.utf8EncodeChar

theorem encoded_flatten (parts : List (List Char)) :
    encoded parts.flatten = (parts.map encoded).flatten := by
  induction parts with
  | nil => rfl
  | cons piece parts ih =>
    rw [List.map_cons, List.flatten_cons, List.flatten_cons, ← ih]
    exact List.flatMap_append

theorem toUTF8_ofList (chars : List Char) :
    (String.ofList chars).toUTF8 = ⟨(encoded chars).toArray⟩ := by
  have bytes : (encoded chars).toByteArray.data = (encoded chars).toArray := List.data_toByteArray
  exact congrArg ByteArray.mk bytes

theorem lineOfBytes_encoded (chars : List Char) :
    lineOfBytes (encoded chars) = .text (String.ofList chars) := by
  rw [lineOfBytes, ← toUTF8_ofList, fromUTF8?_toUTF8]

/-- The byte of a line end is part of no other character. -/
theorem lineEnd_not_mem_utf8EncodeChar {c : Char} (other : c ≠ '\n') :
    10 ∉ String.utf8EncodeChar c := by
  have code : c.val.toNat ≠ 10 := by
    intro same
    exact other (Char.toNat_inj.1 same)
  have apart : ∀ {n : Nat}, n < 256 → n ≠ 10 → (10 : UInt8) ≠ UInt8.ofNat n := by
    intro n small different same
    have value := congrArg UInt8.toNat same
    rw [UInt8.toNat_ofNat_of_lt' small] at value
    exact different value.symm
  -- A character up to 127 is its own byte, and every byte of any other is at least 128.
  unfold String.utf8EncodeChar
  dsimp only
  split_ifs <;> simp only [List.mem_cons, List.not_mem_nil, or_false, not_or]
  · exact apart (by omega) (by omega)
  · exact ⟨apart (by omega) (by omega), apart (by omega) (by omega)⟩
  · exact ⟨apart (by omega) (by omega), apart (by omega) (by omega), apart (by omega) (by omega)⟩
  · exact ⟨apart (by omega) (by omega), apart (by omega) (by omega), apart (by omega) (by omega),
      apart (by omega) (by omega)⟩

theorem lineEnd_not_mem_encoded {chars : List Char} (unbroken : '\n' ∉ chars) :
    10 ∉ encoded chars := by
  intro mem
  obtain ⟨c, among, here⟩ := List.mem_flatMap.1 mem
  exact lineEnd_not_mem_utf8EncodeChar (fun same => unbroken (same ▸ among)) here

theorem Cut.encoded {parts : List (List Char)} (cut : Cut '\n' parts) :
    Cut 10 (parts.map Source.encoded) := by
  induction cut with
  | nil => exact .nil
  | @last piece unbroken nonempty =>
    refine .last (lineEnd_not_mem_encoded unbroken) ?_
    intro empty
    obtain ⟨c, chars, rfl⟩ := List.exists_cons_of_ne_nil nonempty
    exact String.utf8EncodeChar_ne_nil (List.flatMap_eq_nil_iff.1 empty c List.mem_cons_self)
  | @cons piece rest unbroken _ ih =>
    rw [List.map_cons, Source.encoded, List.flatMap_append]
    exact .cons (lineEnd_not_mem_encoded unbroken) ih

/-- The input that a text is encoded as has the lines of the text. -/
theorem ofBytes_toUTF8 (text : String) : ofBytes text.toUTF8 = ofText text := by
  have bytes : text.toUTF8.data.toList = ((pieces '\n' text.toList).map encoded).flatten := calc
    text.toUTF8.data.toList = (String.ofList text.toList).toUTF8.data.toList := by
      rw [String.ofList_toList]
    _ = encoded text.toList := by rw [toUTF8_ofList]
    _ = encoded (pieces '\n' text.toList).flatten := by rw [flatten_pieces]
    _ = ((pieces '\n' text.toList).map encoded).flatten := encoded_flatten _
  have lines : pieces 10 text.toUTF8.data.toList = (pieces '\n' text.toList).map encoded := by
    rw [bytes]
    exact pieces_flatten (cut_pieces '\n' text.toList).encoded
  simp only [ofBytes, ofText, linesOf, lines, List.map_map, Function.comp_def, lineOfBytes_encoded]

/-! ## Texts without one of their lines -/

theorem linesOf_eq_of_cut {parts : List (List Char)} (cut : Cut '\n' parts) :
    linesOf (String.ofList parts.flatten) = parts.map fun line => .text (String.ofList line) := by
  rw [linesOf, String.toList_ofList, pieces_flatten cut]

/-- A text without one of its lines has all the other lines. -/
theorem exists_of_linesOf_append {text line : String} {before after : List Line}
    (split : linesOf text = before ++ .text line :: after) :
    ∃ front back : String,
      text = front ++ line ++ back ∧ linesOf front = before ∧
      linesOf (front ++ back) = before ++ after := by
  have whole := flatten_pieces '\n' text.toList
  have cut := cut_pieces '\n' text.toList
  obtain ⟨front, others, parts, rfl, behind⟩ := List.map_eq_append_iff.1 split
  obtain ⟨piece, back, rfl, same, rfl⟩ := List.map_eq_cons_iff.1 behind
  rw [parts] at whole cut
  refine ⟨String.ofList front.flatten, String.ofList back.flatten, ?_,
    linesOf_eq_of_cut cut.append_left, ?_⟩
  · rw [← String.ofList_toList (s := text), ← whole, ← Line.text.inj same]
    simp only [List.flatten_append, List.flatten_cons, String.ofList_append, String.append_assoc]
  · rw [← String.ofList_append, ← List.flatten_append, linesOf_eq_of_cut cut.erase, List.map_append]

end Lox.Source
