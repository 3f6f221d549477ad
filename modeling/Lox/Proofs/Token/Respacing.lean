import Lox.Proofs.Token.LineBreak
import Lox.Session

/-!
# Scanning tokens that are spaced anew

The tokens of a source, written out with other blanks and comments between them, are the tokens of
that text.  A token fits before a blank whatever it is and whatever followed it in the source, and
behind a blank the next one starts afresh.  What was wrong between the tokens of the source is gone.

* `Segment.Separator`: a blank, and then any mixture of blanks and closed comments.
* `Segment.Fits.beforeBlank`: what a token is does not depend on which blank follows it.
* `Segment.exists_tiles_spaced`: tokens with separators between them fall into these tokens and
  separators.
-/

namespace Lox

/-- The kind and the text of a token, without its line. -/
def Token.spelling (token : Token) : Kind × String := (token.kind, token.text)

/-- The lexemes in order, with the separators between them. -/
def spaced : (lexemes separators : List String) → String
  | [], _ => ""
  | first :: others, separators => first ++ String.join (List.zipWith (· ++ ·) separators others)

theorem spaced_singleton (lexeme : String) (separators : List String) :
    spaced [lexeme] separators = lexeme := by
  simp [spaced]

theorem spaced_cons (first next separator : String) (others separators : List String) :
    spaced (first :: next :: others) (separator :: separators) =
      first ++ (separator ++ spaced (next :: others) separators) := by
  simp [spaced, String.join_cons, String.append_assoc]

namespace Segment

/-! ## Separators -/

/-- Blanks, closed block comments, and line comments that are ended by a line break, in any
order. -/
inductive Filler : List Char → Prop where
  | nil : Filler []
  | blank {c : Char} {rest : List Char} : c ∈ blanks → Filler rest → Filler (c :: rest)
  | blockComment {body rest : List Char} : ¬ closing <:+: body ++ ['*'] → Filler rest →
    Filler ('/' :: '*' :: body ++ closing ++ rest)
  | lineComment {body rest : List Char} : '\n' ∉ body → Filler rest →
    Filler ('/' :: '/' :: body ++ '\n' :: rest)

/-- A blank, and then more blanks and comments. -/
inductive Separator : List Char → Prop where
  | mk {c : Char} {rest : List Char} : c ∈ blanks → Filler rest → Separator (c :: rest)

theorem Separator.filler {separator : List Char} (isSeparator : Separator separator) :
    Filler separator := by
  cases isSeparator with
  | mk blank filler => exact .blank blank filler

theorem Separator.head?_append {separator : List Char} (isSeparator : Separator separator)
    (rest : List Char) : ∀ c ∈ (separator ++ rest).head?, c ∈ blanks := by
  cases isSeparator with
  | mk blank _ =>
    intro c head
    cases head
    exact blank

/-! ## Tokens before blanks -/

/-- A form is the longest before what cannot occur in it. -/
theorem longest_of_stops {Form : List Char → Prop} {text rest : List Char} (form : Form text)
    (stops : ∀ c ∈ rest.head?, ∀ other, Form other → c ∉ other) : Longest Form text rest where
  form := form
  length_le longer formLonger start := by
    cases rest with
    | nil =>
      rw [List.append_nil] at start
      exact start.length_le
    | cons stop rest => exact (prefix_of_not_mem start (stops stop rfl longer formLonger)).length_le

/-- A token fits before a blank, and at the end of a text. -/
theorem Fits.beforeBlank {text rest : List Char} {kind : Kind}
    (fits : Fits ⟨text, .token kind⟩ rest) {other : List Char}
    (blank : ∀ c ∈ other.head?, c ∈ blanks) : Fits ⟨text, .token kind⟩ other := by
  have words : ∀ c ∈ other.head?, ∀ text, IsWord text → c ∉ text := by
    intro c head text word
    exact word.blank_not_mem (blank c head)
  cases fits with
  | mark mem _ =>
    refine .mark mem ?_
    intro c head
    have table : Kind.marks.all fun entry => blanks.all fun c =>
        !entry.2.extensions.contains c := by decide
    have apart := List.all_eq_true.1 (List.all_eq_true.1 table _ mem) c (blank c head)
    simpa using apart
  | string inside => exact .string inside
  | number longest read =>
    refine .number (longest_of_stops longest.form ?_) read
    intro c head text numeral
    exact numeral.blank_not_mem (blank c head)
  | keyword longest mem => exact .keyword (longest_of_stops longest.form words) mem
  | identifier longest notKeyword =>
    exact .identifier (longest_of_stops longest.form words) notKeyword

/-! ## Tiling -/

/-- The kind and the text of a segment that is a token. -/
def spelling? (segment : Segment) : Option (Kind × String) :=
  match segment.content with
  | .token kind => some (kind, String.ofList segment.text)
  | _ => none

@[simp] theorem spelling?_token (text : String) (kind : Kind) :
    spelling? ⟨text.toList, .token kind⟩ = some (kind, text) := by
  simp [spelling?]

/-- The segment is none that something is wrong with. -/
def IsFaultless (segment : Segment) : Prop := ∀ cause, segment.content ≠ .fault cause

/-- The text is scanned as a token of the kind somewhere. -/
def IsToken (word : Kind × String) : Prop := ∃ rest, Fits ⟨word.2.toList, .token word.1⟩ rest

theorem Tiles.exists_fits {cs : List Char} {segments : List Segment} (tiles : Tiles cs segments) :
    ∀ segment ∈ segments, ∃ rest, segment.Fits rest := by
  induction tiles with
  | nil => simp
  | cons fits _ ih => exact List.forall_mem_cons.2 ⟨⟨_, fits⟩, ih⟩

theorem isToken_of_mem {cs : List Char} {segments : List Segment} (tiles : Tiles cs segments)
    {word : Kind × String} (mem : word ∈ segments.filterMap spelling?) : IsToken word := by
  obtain ⟨⟨text, content⟩, memSegment, spelled⟩ := List.mem_filterMap.1 mem
  obtain ⟨rest, fits⟩ := tiles.exists_fits _ memSegment
  cases content with
  | token kind =>
    cases spelled
    refine ⟨rest, ?_⟩
    rw [String.toList_ofList]
    exact fits
  | _ => cases spelled

/-- Filler before a text falls into blanks and comments. -/
theorem Filler.exists_tiles {filler : List Char} (isFiller : Filler filler) {rest : List Char}
    {segments : List Segment} (tiles : Tiles rest segments)
    (faultless : ∀ segment ∈ segments, segment.IsFaultless) :
    ∃ more, Tiles (filler ++ rest) more ∧ more.filterMap spelling? = segments.filterMap spelling? ∧
      ∀ segment ∈ more, segment.IsFaultless := by
  have clean : ∀ {segment : Segment} {more}, (∀ cause, segment.content ≠ .fault cause) →
      (∀ segment ∈ more, segment.IsFaultless) → ∀ other ∈ segment :: more, other.IsFaultless :=
    fun first others => List.forall_mem_cons.2 ⟨first, others⟩
  induction isFiller with
  | nil => exact ⟨segments, tiles, rfl, faultless⟩
  | @blank c _ mem _ ih =>
    obtain ⟨more, tiles, spelled, faultless⟩ := ih
    exact ⟨⟨[c], .blank⟩ :: more, .cons (.blank mem) tiles, spelled, clean (by simp) faultless⟩
  | @blockComment body _ first _ ih =>
    obtain ⟨more, tiles, spelled, faultless⟩ := ih
    refine ⟨⟨'/' :: '*' :: body ++ closing, .blockComment⟩ :: more, ?_, spelled,
      clean (by simp) faultless⟩
    rw [List.append_assoc]
    exact .cons (.blockComment first) tiles
  | @lineComment body filler inside _ ih =>
    obtain ⟨more, tiles, spelled, faultless⟩ := ih
    have ends : ∀ c ∈ ('\n' :: (filler ++ rest)).head?, c = '\n' := by
      intro c head
      cases head
      rfl
    refine ⟨⟨'/' :: '/' :: body, .lineComment⟩ :: ⟨['\n'], .blank⟩ :: more, ?_, spelled,
      clean (by simp) (clean (by simp) faultless)⟩
    -- the line break behind the comment is a blank of its own
    rw [List.append_assoc]
    exact .cons (.lineComment inside ends) (.cons (.blank (by decide)) tiles)

/-- Tokens with separators between them fall into these tokens, with blanks and comments between
them. -/
theorem exists_tiles_spaced {first : Kind × String} {others : List (Kind × String)}
    (words : ∀ word ∈ first :: others, IsToken word) {separators : List String}
    (count : separators.length = others.length)
    (separate : ∀ separator ∈ separators, Separator separator.toList) :
    ∃ segments, Tiles (spaced ((first :: others).map Prod.snd) separators).toList segments ∧
      segments.filterMap spelling? = first :: others ∧
      ∀ segment ∈ segments, segment.IsFaultless := by
  induction others generalizing first separators with
  | nil =>
    obtain ⟨kind, text⟩ := first
    obtain ⟨rest, fits⟩ := words _ List.mem_cons_self
    have alone : Tiles (text.toList ++ []) [⟨text.toList, .token kind⟩] :=
      .cons (fits.beforeBlank (by simp)) .nil
    rw [List.append_nil] at alone
    refine ⟨[⟨text.toList, .token kind⟩], ?_, by simp, by simp [IsFaultless]⟩
    rw [List.map_singleton, spaced_singleton]
    exact alone
  | cons next others ih =>
    obtain ⟨kind, text⟩ := first
    obtain ⟨⟨rest, fits⟩, words⟩ := List.forall_mem_cons.1 words
    cases separators with
    | nil => cases count
    | cons separator separators =>
      obtain ⟨starts, separate⟩ := List.forall_mem_cons.1 separate
      obtain ⟨segments, tiles, spelled, faultless⟩ := ih words (Nat.succ.inj count) separate
      obtain ⟨more, tiles, same, faultless⟩ := starts.filler.exists_tiles tiles faultless
      refine ⟨⟨text.toList, .token kind⟩ :: more, ?_, ?_, ?_⟩
      · rw [List.map_cons, List.map_cons, spaced_cons, String.toList_append, String.toList_append]
        exact .cons (fits.beforeBlank (starts.head?_append _)) tiles
      · rw [List.filterMap_cons_some (spelling?_token text kind), same, spelled]
      · exact List.forall_mem_cons.2 ⟨by simp [IsFaultless], faultless⟩

end Segment

/-! ## Items -/

namespace Item

open Segment

theorem spellings_ofSegments (line : Nat) (segments : List Segment) :
    ((ofSegments line segments).filterMap token?).map Token.spelling =
      segments.filterMap spelling? ++ [(.endOfFile, "")] := by
  induction segments generalizing line with
  | nil => rfl
  | cons segment segments ih =>
    obtain ⟨text, content⟩ := segment
    cases content with
    | token kind => exact congrArg ((kind, String.ofList text) :: ·) (ih _)
    | fault cause => cases cause <;> exact ih _
    | _ => exact ih _

theorem faults_ofSegments {segments : List Segment}
    (faultless : ∀ segment ∈ segments, segment.IsFaultless) (line : Nat) :
    (ofSegments line segments).filterMap fault? = [] := by
  induction segments generalizing line with
  | nil => rfl
  | cons segment segments ih =>
    obtain ⟨text, content⟩ := segment
    obtain ⟨first, others⟩ := List.forall_mem_cons.1 faultless
    cases content with
    | fault cause => exact absurd rfl (first cause)
    | _ => exact ih others _

end Item

/-- The tokens of a source are those of its segments, and then the ending token. -/
theorem spellings_scanned (source : String) :
    (scanned source).1.map Token.spelling =
      (Segment.all source.toList).filterMap Segment.spelling? ++ [(.endOfFile, "")] :=
  Item.spellings_ofSegments 1 (Segment.all source.toList)

theorem scanned_of_tiles {source : String} {segments : List Segment}
    (tiles : Segment.Tiles source.toList segments)
    (faultless : ∀ segment ∈ segments, segment.IsFaultless) :
    (scanned source).2 = [] ∧
      (scanned source).1.map Token.spelling = segments.filterMap Segment.spelling? ++
        [(.endOfFile, "")] := by
  rw [Segment.tiles_iff.1 tiles] at faultless ⊢
  constructor
  · apply List.map_eq_nil_iff.2
    exact Item.faults_ofSegments faultless 1
  · exact spellings_scanned source

/-- The texts of the tokens of a source, the ending token apart. -/
theorem lexemes_scanned (source : String) :
    ((scanned source).1.filter (!·.isEnding)).map (·.text) =
      ((Segment.all source.toList).filterMap Segment.spelling?).map Prod.snd := by
  have tiles : Segment.Tiles source.toList (Segment.all source.toList) := Segment.tiles_iff.2 rfl
  have proper : ∀ word ∈ (Segment.all source.toList).filterMap Segment.spelling?,
      (word.1 != .endOfFile) = true := by
    intro word mem
    obtain ⟨⟨text, content⟩, memSegment, spelled⟩ := List.mem_filterMap.1 mem
    have other := tiles.kind_ne_endOfFile _ memSegment
    cases content with
    | token kind =>
      cases spelled
      simpa using other
    | _ => cases spelled
  calc
    ((scanned source).1.filter (!·.isEnding)).map (·.text) =
        (((scanned source).1.map Token.spelling).filter (·.1 != .endOfFile)).map Prod.snd := by
      rw [List.filter_map, List.map_map]
      rfl
    _ = ((Segment.all source.toList).filterMap Segment.spelling?).map Prod.snd := by
      rw [spellings_scanned, List.filter_append, List.filter_eq_self.2 proper]
      exact congrArg (List.map Prod.snd) (List.append_nil _)

/-- The tokens of a source, whatever else is wrong with it, are written out with any separators
between them.  Nothing is wrong with that text, and its tokens are the same but for lines. -/
theorem scanned_spaced_lexemes {source : String} {separators : List String}
    (count : separators.length = ((scanned source).1.filter (!·.isEnding)).length - 1)
    (separate : ∀ separator ∈ separators, Segment.Separator separator.toList) :
    let text := spaced (((scanned source).1.filter (!·.isEnding)).map (·.text)) separators
    (scanned text).2 = [] ∧
      (scanned text).1.map Token.spelling = (scanned source).1.map Token.spelling := by
  have tiles : Segment.Tiles source.toList (Segment.all source.toList) := Segment.tiles_iff.2 rfl
  have lexemes := lexemes_scanned source
  have length := congrArg List.length lexemes
  rw [List.length_map, List.length_map] at length
  rw [length] at count
  dsimp only
  rw [lexemes, spellings_scanned source]
  generalize found : (Segment.all source.toList).filterMap Segment.spelling? = words at count
  cases words with
  | nil =>
    have tiles : Segment.Tiles "".toList [] := by
      rw [String.toList_empty]
      exact .nil
    exact scanned_of_tiles tiles (by simp)
  | cons first others =>
    have tokens : ∀ word ∈ first :: others, Segment.IsToken word := by
      intro word mem
      rw [← found] at mem
      exact Segment.isToken_of_mem tiles mem
    obtain ⟨segments, tiles, spelled, faultless⟩ :=
      Segment.exists_tiles_spaced tokens count separate
    rw [← spelled]
    rw [← spelled] at tiles
    exact scanned_of_tiles tiles faultless

theorem scanned_bangFault :
    scanned "!@=\"//\"" =
      ([⟨⟨"!", 1⟩, .bang⟩, ⟨⟨"=", 1⟩, .equal⟩, ⟨⟨"\"//\"", 1⟩, .string "//"⟩, .ending 1],
      [.lexical 1 "Unexpected character '@'."]) := by
  have segments : Segment.all ['!', '@', '=', '"', '/', '/', '"'] = [⟨['!'], .token .bang⟩,
      ⟨['@'], .fault (.unexpected '@')⟩, ⟨['='], .token .equal⟩,
      ⟨['"', '/', '/', '"'], .token (.string "//")⟩] := by
    decide +kernel
  have text : "!@=\"//\"".toList = ['!', '@', '=', '"', '/', '/', '"'] := String.toList_ofList
  simp only [scanned, scan, text, segments]
  rfl

/-- A source with a fault between two tokens that would be one without it, and with a string that
holds the start of a comment.  The tokens are spaced with comments. -/
theorem scanned_spaced_lexemes_bangFault :
    (scanned "!@=\"//\"").2 ≠ [] ∧
      Segment.Separator " /**/".toList ∧ Segment.Separator "\n//*\n".toList ∧
      (scanned (spaced ["!", "=", "\"//\""] [" /**/", "\n//*\n"])).2 = [] ∧
      (scanned (spaced ["!", "=", "\"//\""] [" /**/", "\n//*\n"])).1.map Token.spelling =
        [(.bang, "!"), (.equal, "="), (.string "//", "\"//\""), (.endOfFile, "")] := by
  have block : Segment.Separator " /**/".toList := by
    have text : " /**/".toList = ' ' :: ('/' :: '*' :: [] ++ Segment.closing ++ []) :=
      String.toList_ofList
    rw [text]
    exact .mk (by decide) (.blockComment (by decide) .nil)
  have line : Segment.Separator "\n//*\n".toList := by
    have text : "\n//*\n".toList = '\n' :: ('/' :: '/' :: ['*'] ++ '\n' :: []) :=
      String.toList_ofList
    rw [text]
    exact .mk (by decide) (.lineComment (by decide) .nil)
  have separate : ∀ separator ∈ [" /**/", "\n//*\n"], Segment.Separator separator.toList := by
    simp only [List.forall_mem_cons]
    exact ⟨block, line, by simp⟩
  have count :
      [" /**/", "\n//*\n"].length = ((scanned "!@=\"//\"").1.filter (!·.isEnding)).length - 1 := by
    rw [scanned_bangFault]
    rfl
  have stable := scanned_spaced_lexemes count separate
  rw [scanned_bangFault] at stable ⊢
  exact ⟨by simp, block, line, stable⟩

end Lox
