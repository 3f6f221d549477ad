import Lox.Proofs.Layout.Lined
import Lox.Proofs.Token.Tiling

/-!
# Scanning across a line break

No token goes on over a line break, except a string, and no comment, except one in a block.  So two
sources with a line break between them scan as they do alone, unless a string or a comment is left
open in the first.  The second only has its lines counted from further down.

* `Segment.all_lineBreak`: the segments of two texts with a line break between them.
* `scan_lineBreak`: the items of two sources with a line break between them.
* `scan_homomorphic_at_newline`: the same with the ending token of the first told apart.
-/

namespace Lox

namespace Segment

/-- The segment is neither a string nor a comment that is left open. -/
def IsClosed (segment : Segment) : Prop :=
  segment.content ≠ .fault .openString ∧ segment.content ≠ .fault .openComment

theorem prefix_of_not_mem {stop : Char} {longer cs more : List Char}
    (start : longer <+: cs ++ stop :: more) (absent : stop ∉ longer) : longer <+: cs := by
  obtain ⟨last, same⟩ := start
  rcases List.append_eq_append_iff.1 same with ⟨between, rfl, -⟩ | ⟨between, rfl, rest⟩
  · exact List.prefix_append longer between
  · cases between with
    | nil => simp
    | cons c between =>
      obtain ⟨rfl, -⟩ := List.cons.inj rest
      simp at absent

/-- What is longest before a text is so before the text with a line break and anything behind it. -/
theorem Longest.lineBreak {Form : List Char → Prop} {text rest : List Char}
    (longest : Longest Form text rest) (inLine : ∀ other, Form other → '\n' ∉ other)
    (more : List Char) : Longest Form text (rest ++ '\n' :: more) where
  form := longest.form
  length_le longer form start := by
    rw [← List.append_assoc] at start
    exact longest.length_le longer form (prefix_of_not_mem start (inLine longer form))

theorem IsWord.blank_not_mem {text : List Char} (word : IsWord text) {c : Char}
    (blank : c ∈ blanks) : c ∉ text := by
  intro mem
  have table : blanks.all fun c => !continuesWord c := by decide
  have other := List.all_eq_true.1 table c blank
  rw [word.continues c mem] at other
  cases other

theorem IsNumeral.blank_not_mem {text : List Char} (numeral : IsNumeral text) {c : Char}
    (blank : c ∈ blanks) : c ∉ text := by
  have table : blanks.all fun c => !c.isDigit && c != '.' := by decide
  have other := List.all_eq_true.1 table c blank
  rw [Bool.and_eq_true, bne_iff_ne, Bool.not_eq_true'] at other
  have none : ∀ {digits}, IsDigits digits → c ∉ digits := fun isDigits mem => by
    have digit := isDigits.all c mem
    rw [other.1] at digit
    cases digit
  cases numeral with
  | whole isDigits => exact none isDigits
  | point isDigits isFraction =>
    rw [List.mem_append, List.mem_cons]
    rintro (inside | same | after)
    · exact none isDigits inside
    · exact other.2 same
    · exact none isFraction after

theorem head?_lineBreak {rest more : List Char} {c : Char}
    (head : c ∈ (rest ++ '\n' :: more).head?) : c ∈ rest.head? ∨ c = '\n' := by
  cases rest with
  | nil =>
    cases head
    exact .inr rfl
  | cons d rest => exact .inl head

theorem Fits.lineBreak {segment : Segment} {rest : List Char} (fits : segment.Fits rest)
    (closed : segment.IsClosed) (more : List Char) : segment.Fits (rest ++ '\n' :: more) := by
  have newline : '\n' ∈ blanks := by decide
  cases fits with
  | blank mem => exact .blank mem
  | lineComment inside ends =>
    refine .lineComment inside ?_
    intro c head
    rcases head?_lineBreak head with before | same
    · exact ends c before
    · exact same
  | blockComment first => exact .blockComment first
  | @mark text rest kind mem free =>
    refine .mark mem ?_
    intro c head
    rcases head?_lineBreak head with before | rfl
    · exact free c before
    · have table : ∀ entry ∈ Kind.marks, '\n' ∉ entry.2.extensions := by decide
      exact table _ mem
  | string inside => exact .string inside
  | number longest read =>
    exact .number (longest.lineBreak (fun _ form => IsNumeral.blank_not_mem form newline) more) read
  | keyword longest mem =>
    exact .keyword (longest.lineBreak (fun _ form => IsWord.blank_not_mem form newline) more) mem
  | identifier longest other =>
    exact .identifier
      (longest.lineBreak (fun _ form => IsWord.blank_not_mem form newline) more) other
  | unexpected other => exact .unexpected other
  | openString _ => exact absurd rfl closed.1
  | openComment _ => exact absurd rfl closed.2

theorem Tiles.lineBreak {cs ds : List Char} {front back : List Segment} (tiles : Tiles cs front)
    (closed : ∀ segment ∈ front, segment.IsClosed) (rest : Tiles ds back) :
    Tiles (cs ++ '\n' :: ds) (front ++ ⟨['\n'], .blank⟩ :: back) := by
  induction tiles with
  | nil => exact .cons (.blank (by decide)) rest
  | cons fits _ ih =>
    obtain ⟨closedFirst, closedRest⟩ := List.forall_mem_cons.1 closed
    rw [List.append_assoc]
    exact .cons (fits.lineBreak closedFirst ds) (ih closedRest)

/-- The segments of two texts with a line break between them. -/
theorem all_lineBreak {cs : List Char} (closed : ∀ segment ∈ all cs, segment.IsClosed)
    (ds : List Char) : all (cs ++ '\n' :: ds) = all cs ++ ⟨['\n'], .blank⟩ :: all ds :=
  (tiles_iff.1 ((tiles_iff.2 rfl).lineBreak closed (tiles_iff.2 rfl))).symm

end Segment

/-! ## Items -/

namespace Item

open Segment

theorem ofSegments_ne_nil (line : Nat) (segments : List Segment) :
    ofSegments line segments ≠ [] := by
  induction segments generalizing line with
  | nil => simp [ofSegments]
  | cons segment segments ih =>
    unfold ofSegments
    dsimp only
    split
    · simp
    · exact ih _

/-- The items of the first segments, without an ending token, and then those of the others, further
down. -/
theorem ofSegments_append (line : Nat) (front back : List Segment) :
    ofSegments line (front ++ back) =
      (ofSegments line front).dropLast ++ ofSegments (line + newlines (textOf front)) back := by
  induction front generalizing line with
  | nil => rfl
  | cons segment front ih =>
    have below : line + newlines (textOf (segment :: front)) =
        line + newlines segment.text + newlines (textOf front) := by
      rw [← List.singleton_append, textOf_append, textOf_singleton, newlines_append, Nat.add_assoc]
    rw [List.cons_append, below, ofSegments, ofSegments, ih]
    split
    · rw [List.dropLast_cons_of_ne_nil (ofSegments_ne_nil _ _), List.cons_append]
    · rfl

/-- Segments that start further down have their items further down. -/
theorem ofSegments_add (line down : Nat) (segments : List Segment) :
    ofSegments (line + down) segments = reline (· + down) (ofSegments line segments) := by
  induction segments generalizing line with
  | nil => rfl
  | cons segment segments ih =>
    have last : line + down + newlines segment.text = line + newlines segment.text + down := by
      omega
    simp only [ofSegments, last, ih]
    rcases segment with ⟨text, content⟩
    cases content with
    | token kind => rfl
    | fault cause => cases cause <;> rfl
    | _ => rfl

theorem exists_fault_of_mem {segment : Segment} {segments : List Segment} {cause : LexicalFault}
    (mem : segment ∈ segments) (content : segment.content = .fault cause) (line : Nat) :
    ∃ at', .fault at' cause ∈ ofSegments line segments := by
  induction segments generalizing line with
  | nil => cases mem
  | cons first rest ih =>
    unfold ofSegments
    dsimp only
    rcases List.mem_cons.1 mem with rfl | later
    · have item : ∃ at', ofSegment? line (line + newlines segment.text) segment =
          some (.fault at' cause) := by
        unfold ofSegment?
        rw [content]
        cases cause <;> exact ⟨_, rfl⟩
      obtain ⟨place, item⟩ := item
      rw [item]
      exact ⟨place, List.mem_cons_self⟩
    · obtain ⟨place, found⟩ := ih later (line + newlines first.text)
      refine ⟨place, ?_⟩
      split
      · exact List.mem_cons_of_mem _ found
      · exact found

end Item

/-- Two sources with a line break between them scan as they do alone, the second with its lines
further down, if the first leaves no string and no comment open. -/
theorem scan_lineBreak {source : String} (string : ∀ line, .fault line .openString ∉ scan source)
    (comment : ∀ line, .fault line .openComment ∉ scan source) (other : String) :
    scan (source ++ "\n" ++ other) =
      (scan source).dropLast ++ reline (· + (1 + Segment.newlines source.toList)) (scan other) := by
  have closed : ∀ segment ∈ Segment.all source.toList, segment.IsClosed := by
    intro segment mem
    constructor
    · intro content
      obtain ⟨line, found⟩ := Item.exists_fault_of_mem mem content 1
      exact string line found
    · intro content
      obtain ⟨line, found⟩ := Item.exists_fault_of_mem mem content 1
      exact comment line found
  have text : (source ++ "\n" ++ other).toList = source.toList ++ '\n' :: other.toList := by
    simp [String.toList_append]
  have tiles : Segment.Tiles source.toList (Segment.all source.toList) := Segment.tiles_iff.2 rfl
  unfold scan
  rw [text, Segment.all_lineBreak closed, Item.ofSegments_append, tiles.textOf_eq, ←
    Item.ofSegments_add]
  -- the line break itself is a blank, and what follows it is one line further down
  have down : 1 + Segment.newlines source.toList + Segment.newlines ['\n'] =
      1 + (1 + Segment.newlines source.toList) := by
    have one : Segment.newlines ['\n'] = 1 := by decide
    omega
  rw [← down]
  rfl

/-- Scanning is a homomorphism at line breaks.  A source may leave no string and no comment open,
whatever else is wrong with it.  Its items are those before its only ending token.  They stand as
they are before the items of any other source behind a line break, and the others have their lines
counted on. -/
theorem scan_homomorphic_at_newline {source : String}
    (closed : ∀ line, .fault line .openString ∉ scan source ∧
      .fault line .openComment ∉ scan source)
    (other : String) :
    ∃ items, scan source = items ++ [.token (.ending (1 + Segment.newlines source.toList))] ∧
      (∀ token, .token token ∈ items → token.kind ≠ .endOfFile) ∧
      scan (source ++ "\n" ++ other) =
        items ++ (scan other).map (reline (· + (1 + Segment.newlines source.toList))) := by
  have items := scan_eq source
  have joined := scan_lineBreak (fun line => (closed line).1) (fun line => (closed line).2) other
  refine ⟨(scan source).dropLast, ?_, fun token mem => ?_, joined⟩
  · rw [items, List.dropLast_concat]
  · rw [items, List.dropLast_concat] at mem
    exact kind_ne_endOfFile_of_mem_inits mem

theorem scan_fault_bang :
    scan "@!" = [.fault 1 (.unexpected '@'), .token ⟨⟨"!", 1⟩, .bang⟩, .token (.ending 1)] := by
  have segments :
      Segment.all ['@', '!'] = [⟨['@'], .fault (.unexpected '@')⟩, ⟨['!'], .token .bang⟩] := by
    decide +kernel
  have text : "@!".toList = ['@', '!'] := String.toList_ofList
  simp only [scan, text, segments]
  rfl

theorem scan_equal : scan "=" = [.token ⟨⟨"=", 1⟩, .equal⟩, .token (.ending 1)] := by
  have segments : Segment.all ['='] = [⟨['='], .token .equal⟩] := by decide +kernel
  have text : "=".toList = ['='] := String.toList_ofList
  simp only [scan, text, segments]
  rfl

/-- A line break between the halves of an operator, and a fault before it. -/
theorem scan_homomorphic_at_newline_operatorHalves :
    (∀ line, .fault line .openString ∉ scan "@!" ∧ .fault line .openComment ∉ scan "@!") ∧
      scan ("@!" ++ "\n" ++ "=") = [.fault 1 (.unexpected '@'), .token ⟨⟨"!", 1⟩, .bang⟩,
        .token ⟨⟨"=", 2⟩, .equal⟩, .token (.ending 2)] := by
  have closed : ∀ line, .fault line .openString ∉ scan "@!" ∧
      .fault line .openComment ∉ scan "@!" := by
    intro line
    simp [scan_fault_bang]
  have newlines : Segment.newlines "@!".toList = 0 := by
    have text : "@!".toList = ['@', '!'] := String.toList_ofList
    rw [text]
    decide
  obtain ⟨items, first, -, joined⟩ := scan_homomorphic_at_newline closed "="
  rw [newlines, scan_fault_bang] at first
  have front : items = [.fault 1 (.unexpected '@'), .token ⟨⟨"!", 1⟩, .bang⟩] :=
    (List.append_inj_left' first rfl).symm
  refine ⟨closed, ?_⟩
  rw [joined, front, newlines, scan_equal]
  rfl

end Lox
