import Lox.Proofs.Token.Fits

/-!
# Scanning tiles the source

A source text falls into consecutive segments that fit, and there is only one way to cut it up so.
The items of the source are those of its segments that are tokens or faults.

* `Segment.tiles_iff`: the segments of a text are the only ones that tile it.
* `Item.ofSegments_eq`: the lines of the items are counted from the start of the text.
-/

namespace Lox

namespace Segment

/-- The text falls into the segments. -/
inductive Tiles : List Char → List Segment → Prop where
  | nil : Tiles [] []
  | cons {segment : Segment} {rest : List Char} {segments : List Segment} : segment.Fits rest →
    Tiles rest segments → Tiles (segment.text ++ rest) (segment :: segments)

/-- The text that segments make up. -/
def textOf (segments : List Segment) : List Char := segments.flatMap text

theorem textOf_append (front back : List Segment) :
    textOf (front ++ back) = textOf front ++ textOf back :=
  List.flatMap_append

theorem textOf_singleton (segment : Segment) : textOf [segment] = segment.text := by
  simp [textOf]

theorem newlines_append (front back : List Char) :
    newlines (front ++ back) = newlines front + newlines back :=
  List.count_append

theorem Tiles.textOf_eq {cs : List Char} {segments : List Segment} (tiles : Tiles cs segments) :
    textOf segments = cs := by
  induction tiles with
  | nil => rfl
  | @cons segment rest segments _ _ ih => rw [textOf, List.flatMap_cons, ← textOf, ih]

theorem Fits.text_ne_nil {segment : Segment} {rest : List Char} (fits : segment.Fits rest) :
    segment.text ≠ [] := by
  cases fits with
  | mark mem _ =>
    have table : ∀ entry ∈ Kind.marks, entry.1.toList ≠ [] := by decide
    simpa using table _ mem
  | number longest _ =>
    rcases longest.form with isDigits | _
    · exact isDigits.ne_nil
    · simp
  | keyword longest _ =>
    rcases longest.form with ⟨_, _⟩
    simp
  | identifier longest _ =>
    rcases longest.form with ⟨_, _⟩
    simp
  | _ => simp

theorem tiles_upTo {budget : Nat} {cs : List Char} (enough : cs.length ≤ budget) :
    Tiles cs (upTo budget cs) := by
  induction budget generalizing cs with
  | zero =>
    rw [List.eq_nil_of_length_eq_zero (Nat.le_zero.1 enough)]
    exact .nil
  | succ budget ih =>
    cases cs with
    | nil => exact .nil
    | cons c cs =>
      obtain ⟨fits, whole⟩ := first_opens c cs
      have shorter : (first c cs).2.length ≤ budget := by
        have length := congrArg List.length whole
        have some := List.length_pos_iff.2 fits.text_ne_nil
        simp only [List.length_append, List.length_cons] at length enough
        omega
      have tiles := Tiles.cons fits (ih shorter)
      rw [whole] at tiles
      exact tiles

theorem Tiles.upTo_eq {cs : List Char} {segments : List Segment} (tiles : Tiles cs segments)
    {budget : Nat} (enough : cs.length ≤ budget) : upTo budget cs = segments := by
  induction tiles generalizing budget with
  | nil => cases budget <;> rfl
  | @cons segment rest segments fits _ ih =>
    obtain ⟨c, cs, same⟩ := List.exists_cons_of_ne_nil fits.text_ne_nil
    rw [same, List.cons_append, List.length_cons, List.length_append] at enough
    cases budget with
    | zero => omega
    | succ budget =>
      have cut : first c (cs ++ rest) = (segment, rest) := by
        apply fits.first_eq
        rw [same, List.cons_append]
      rw [same, List.cons_append, upTo, cut]
      exact congrArg (segment :: ·) (ih (by omega))

/-- The segments of a text are the only ones that it falls into. -/
theorem tiles_iff {cs : List Char} {segments : List Segment} :
    Tiles cs segments ↔ segments = all cs := by
  constructor
  · intro tiles
    exact (tiles.upTo_eq (Nat.le_refl _)).symm
  · rintro rfl
    exact tiles_upTo (Nat.le_refl _)

end Segment

/-! ## Items -/

namespace Item

open Segment

/-- The item that the last of some segments is, if it is one, where the segments start on the first
line.  It is on the line on which it ends, and only a comment that is never closed on the line on
which it starts. -/
def ofLast? (segments : List Segment) : Option Item :=
  match segments.getLast? with
  | some ⟨text, .token kind⟩ =>
    some (.token ⟨⟨String.ofList text, 1 + newlines (textOf segments)⟩, kind⟩)
  | some ⟨_, .fault .openComment⟩ =>
    some (.fault (1 + newlines (textOf segments.dropLast)) .openComment)
  | some ⟨_, .fault cause⟩ => some (.fault (1 + newlines (textOf segments)) cause)
  | _ => none

theorem line_concat (front : List Segment) (segment : Segment) :
    1 + newlines (textOf (front ++ [segment])) = 1 + newlines (textOf front) +
    newlines segment.text := by
  rw [textOf_append, textOf_singleton, newlines_append, Nat.add_assoc]

theorem ofLast?_concat (front : List Segment) (segment : Segment) :
    ofLast? (front ++ [segment]) =
      ofSegment? (1 + newlines (textOf front))
        (1 + newlines (textOf front) + newlines segment.text) segment := by
  unfold ofLast? ofSegment?
  rw [List.getLast?_concat, List.dropLast_concat, line_concat]
  rcases segment with ⟨text, content⟩
  cases content with
  | fault cause => cases cause <;> rfl
  | _ => rfl

/-- The segments that stand behind others give the items that they are the last of. -/
theorem ofSegments_eq (front segments : List Segment) :
    ofSegments (1 + newlines (textOf front)) segments =
      segments.inits.tail.filterMap (fun init => ofLast? (front ++ init)) ++
        [.token (.ending (1 + newlines (textOf (front ++ segments))))] := by
  induction segments generalizing front with
  | nil =>
    rw [List.append_nil]
    rfl
  | cons segment segments ih =>
    have rest := ih (front ++ [segment])
    have inits : segments.inits = [] :: segments.inits.tail := by cases segments <;> simp
    have step : ∀ init, front ++ [segment] ++ init = front ++ segment :: init := fun init => by simp
    rw [line_concat, step] at rest
    simp only [step] at rest
    rw [List.inits_cons, List.tail_cons, List.filterMap_map, inits, List.filterMap_cons]
    simp only [Function.comp_def, ofLast?_concat, ofSegments, rest]
    cases ofSegment? (1 + newlines (textOf front))
      (1 + newlines (textOf front) + newlines segment.text) segment with
    | none => rfl
    | some item => rfl

theorem kind_of_mem_inits {segments : List Segment} {token : Token}
    (mem : .token token ∈ segments.inits.filterMap ofLast?) :
    ∃ segment ∈ segments, segment.content = .token token.kind := by
  obtain ⟨init, memInit, same⟩ := List.mem_filterMap.1 mem
  unfold ofLast? at same
  split at same
  · next text kind last =>
    refine ⟨⟨text, .token kind⟩, ?_, ?_⟩
    · exact ((List.mem_inits _ _).1 memInit).subset (List.mem_of_getLast? last)
    · cases same
      rfl
  · cases same
  · cases same
  · cases same

end Item

theorem Segment.Tiles.kind_ne_endOfFile {cs : List Char} {segments : List Segment}
    (tiles : Tiles cs segments) : ∀ segment ∈ segments, segment.content ≠ .token .endOfFile := by
  induction tiles with
  | nil => simp
  | @cons segment rest segments fits _ ih =>
    refine List.forall_mem_cons.2 ⟨?_, ih⟩
    cases fits with
    | mark mem _ =>
      have table : ∀ entry ∈ Kind.marks, entry.2 ≠ .endOfFile := by decide
      simpa using table _ mem
    | keyword _ mem =>
      have table : ∀ entry ∈ Kind.keywords, entry.2 ≠ .endOfFile := by decide
      simpa using table _ mem
    | _ => simp

/-- The items of a source are those of its segments, and then the ending token on the last line. -/
theorem scan_eq (source : String) :
    scan source = (Segment.all source.toList).inits.filterMap Item.ofLast? ++
      [.token (.ending (1 + Segment.newlines source.toList))] := by
  have tiles : Segment.Tiles source.toList (Segment.all source.toList) := Segment.tiles_iff.2 rfl
  have items := Item.ofSegments_eq [] (Segment.all source.toList)
  have inits :
      (Segment.all source.toList).inits = [] :: (Segment.all source.toList).inits.tail := by
    cases Segment.all source.toList <;> simp
  rw [List.nil_append, tiles.textOf_eq] at items
  rw [scan, inits]
  exact items

theorem kind_ne_endOfFile_of_mem_inits {cs : List Char} {token : Token}
    (mem : .token token ∈ (Segment.all cs).inits.filterMap Item.ofLast?) :
    token.kind ≠ .endOfFile := by
  intro ending
  obtain ⟨segment, memSegment, content⟩ := Item.kind_of_mem_inits mem
  rw [ending] at content
  exact (Segment.tiles_iff.2 rfl).kind_ne_endOfFile segment memSegment content

/-- A source falls into consecutive segments, in one way only, each of which is a blank, a comment,
the text of a token or that of a fault.  Scanning gives the tokens and the faults among them in
order, each token with its text and on the line on which it ends, and then the only ending token, on
the last line. -/
theorem scan_tiles_source (source : String) :
    ∃ segments : List Segment,
      Segment.Tiles source.toList segments ∧ Segment.textOf segments = source.toList ∧
      (∀ others, Segment.Tiles source.toList others → others = segments) ∧
      scan source = segments.inits.filterMap Item.ofLast? ++
        [.token (.ending (1 + Segment.newlines source.toList))] ∧
      ∀ token, .token token ∈ segments.inits.filterMap Item.ofLast? → token.kind ≠ .endOfFile := by
  have tiles : Segment.Tiles source.toList (Segment.all source.toList) := Segment.tiles_iff.2 rfl
  refine ⟨Segment.all source.toList, tiles, tiles.textOf_eq, fun others => Segment.tiles_iff.1,
    scan_eq source, ?_⟩
  intro token mem
  exact kind_ne_endOfFile_of_mem_inits mem

end Lox
