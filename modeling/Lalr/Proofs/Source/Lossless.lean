import Lalr.Proofs.Source.Lexing
import Mathlib.Data.List.Chain

/-! Scanning neither loses nor invents text. Each token has its own part of the text, from the
first byte of its span to the last, and what lies between these parts is white space and
comments. -/
namespace Lalr.Source

variable {cs gap lexeme : List Char} {l : Location} {t : Located} {ts : List Located}
  {text : String} {start : Nat}

inductive Token.SpelledBy : Token → List Char → Prop
  | identifier {c : Char} {rest : List Char} (first : Text.isIdentifierStart c = true)
      (names : ∀ d ∈ rest, Text.isXidContinue d = true) :
      SpelledBy (.identifier (.ofList (c :: rest))) (c :: rest)
  | fixed {t : Token} {spelling : List Char} (member : (spelling, t) ∈ fixedTokens) :
      SpelledBy t spelling
  | pattern {body : List Char} (escaped : Escaped body) :
      SpelledBy (.pattern (.ofList body)) ('"' :: body ++ ['"'])
  | code {body : List Char} (absent : ¬ ['*', ']'] <:+: body) :
      SpelledBy (.code (.ofList (Text.trimmed body))) ('[' :: '*' :: body ++ ['*', ']'])

inductive Tiles : Location → List Char → List Located → Prop
  | last {l : Location} {gap : List Char} (blank : Blank gap) : Tiles l gap []
  | token {l : Location} {gap lexeme rest : List Char} {t : Token} {ts : List Located}
      (blank : Blank gap) (nonempty : lexeme ≠ []) (spelled : t.SpelledBy lexeme)
      (tiles : Tiles ((l.afterAll gap).afterAll lexeme) rest ts) :
      Tiles l (gap ++ (lexeme ++ rest))
        (⟨t, l.afterAll gap, (l.afterAll gap).afterAll lexeme⟩ :: ts)

theorem Tiles.behind (blank : Blank gap) (tiles : Tiles (l.afterAll gap) cs ts) :
    Tiles l (gap ++ cs) ts := by
  cases tiles with
  | last blank' => exact .last (blank.append blank')
  | token blank' nonempty spelled tiles =>
    rw [← Location.afterAll_append l] at tiles
    have whole := Tiles.token (blank.append blank') nonempty spelled tiles
    rwa [Location.afterAll_append, List.append_assoc] at whole

theorem spelledBy_of_next {c : Char} {rest used after : List Char} {t : Token}
    (found : Piece.next c rest = .token t used after) : t.SpelledBy used := by
  have front := Piece.next_eq_iff.1 found
  generalize c :: rest = cs, piece_eq : Piece.token t used after = piece at front
  cases front with
  | identifier first =>
    obtain ⟨rfl, rfl, -⟩ := Piece.token.inj piece_eq
    exact .identifier first fun d => List.mem_takeWhile_imp
  | fixed member =>
    obtain ⟨rfl, rfl, -⟩ := Piece.token.inj piece_eq
    exact .fixed member
  | pattern inside =>
    obtain ⟨rfl, rfl, -⟩ := Piece.token.inj piece_eq
    exact .pattern (patternBody_eq_some_iff.1 inside).2
  | code inside =>
    obtain ⟨rfl, rfl, -⟩ := Piece.token.inj piece_eq
    exact .code (codeBody_eq_some_iff.1 inside).2
  | line | block => exact absurd piece_eq.symm (commentPiece_ne_token _)
  | _ => cases piece_eq

/-- A text that is scanned to its end is made of its tokens and blank space. -/
theorem tiles_of_scanFrom (read : scanFrom l cs = (ts, none)) : Tiles l cs ts := by
  induction l, cs using scan_induction generalizing ts with
  | nil l =>
    rw [scanFrom] at read
    obtain ⟨rfl, -⟩ := Prod.mk.inj read
    exact .last .nil
  | blank l c rest used after found ih =>
    rw [scanFrom_of_blank found] at read
    rw [(split_of_blank found).1]
    exact .behind (blank_of_next found) (ih read)
  | token l c rest t used after found ih =>
    rw [scanFrom_of_token found] at read
    obtain ⟨rfl, sound⟩ := Prod.mk.inj read
    obtain ⟨split, nonempty⟩ := split_of_token found
    rw [split]
    exact .token .nil nonempty (spelledBy_of_next found) (ih (Prod.ext rfl sound))
  | broken l c rest passed found =>
    rw [scanFrom_of_broken found] at read
    cases read

/-! ## Spans -/

def StandsAt (text part : String) (first last : Nat) : Prop :=
  ∃ front back, text = front ++ part ++ back ∧ front.utf8ByteSize = first ∧
    (front ++ part).utf8ByteSize = last

def BlankBetween (text : String) (first last : Nat) : Prop :=
  ∃ gap, StandsAt text gap first last ∧ Blank gap.toList

/-- From the byte `start` on, a text has these tokens, and nothing else but blank space. -/
structure Covers (text : String) (start : Nat) (ts : List Located) : Prop where
  /-- A span is not empty, and bounds the characters that spell its token. -/
  span : ∀ t ∈ ts, t.first.offset < t.last.offset ∧
    ∃ lexeme, StandsAt text lexeme t.first.offset t.last.offset ∧ t.token.SpelledBy lexeme.toList
  /-- No two spans overlap. -/
  ordered : ts.Pairwise fun a b => a.last.offset ≤ b.first.offset
  /-- Before the first token. -/
  front : ∀ t ∈ ts.head?, BlankBetween text start t.first.offset
  between : ts.IsChain fun a b => BlankBetween text a.last.offset b.first.offset
  /-- Behind the last token. -/
  back : BlankBetween text ((ts.getLast?.map fun t => t.last.offset).getD start) text.utf8ByteSize

theorem standsAt_of_split {front part back : List Char}
    (split : text.toList = front ++ (part ++ back))
    (begins : l.offset = (String.ofList front).utf8ByteSize) :
    StandsAt text (.ofList part) l.offset (l.afterAll part).offset := by
  refine ⟨.ofList front, .ofList back, ?_, begins.symm, ?_⟩
  · rw [← String.toList_inj, split]
    simp
  · rw [String.utf8ByteSize_append, Location.offset_afterAll, begins]

theorem Location.le_afterAll (l : Location) (cs : List Char) :
    l.offset ≤ (l.afterAll cs).offset := by
  rw [Location.offset_afterAll]
  exact Nat.le_add_right ..

theorem Location.lt_afterAll (l : Location) (nonempty : cs ≠ []) :
    l.offset < (l.afterAll cs).offset := by
  have size : (String.ofList cs).utf8ByteSize ≠ 0 := by simpa using nonempty
  rw [Location.offset_afterAll]
  omega

theorem Tiles.le_first (tiles : Tiles l cs ts) (member : t ∈ ts) : l.offset ≤ t.first.offset := by
  induction tiles with
  | last => cases member
  | @token l gap lexeme rest t' ts _ _ _ _ ih =>
    have gap_le := l.le_afterAll gap
    rcases List.mem_cons.1 member with rfl | member
    · exact gap_le
    · exact gap_le.trans (((l.afterAll gap).le_afterAll lexeme).trans (ih member))

theorem offset_afterAll_of_begins {front : List Char} (part : List Char)
    (begins : l.offset = (String.ofList front).utf8ByteSize) :
    (l.afterAll part).offset = (String.ofList (front ++ part)).utf8ByteSize := by
  rw [Location.offset_afterAll, begins, String.ofList_append, String.utf8ByteSize_append]

/-- Tiles of the end of a text cover it from where it begins. -/
theorem Tiles.covers {front : List Char} (tiles : Tiles l cs ts)
    (split : text.toList = front ++ cs) (begins : l.offset = (String.ofList front).utf8ByteSize) :
    Covers text l.offset ts := by
  induction tiles generalizing front with
  | @last l gap blank =>
    have whole : (l.afterAll gap).offset = text.utf8ByteSize := by
      rw [offset_afterAll_of_begins gap begins, ← split, String.ofList_toList]
    have stands : StandsAt text (.ofList gap) l.offset (l.afterAll gap).offset :=
      standsAt_of_split (by rw [split, List.append_nil]) begins
    constructor
    case back => exact ⟨_, whole ▸ stands, by simpa using blank⟩
    case ordered => exact .nil
    case between => exact .nil
    all_goals exact nofun
  | @token l gap lexeme rest t ts blank nonempty spelled tiles ih =>
    have begins' := offset_afterAll_of_begins gap begins
    have gapStands : StandsAt text (.ofList gap) l.offset (l.afterAll gap).offset :=
      standsAt_of_split split begins
    have stands : StandsAt text (.ofList lexeme) (l.afterAll gap).offset
        ((l.afterAll gap).afterAll lexeme).offset :=
      standsAt_of_split (by rw [split, List.append_assoc]) begins'
    have behind : text.toList = front ++ gap ++ lexeme ++ rest := by
      simp only [split, List.append_assoc]
    have covers := ih behind (offset_afterAll_of_begins lexeme begins')
    constructor
    case span =>
      refine List.forall_mem_cons.2 ⟨⟨Location.lt_afterAll _ nonempty, _, stands, ?_⟩, covers.span⟩
      rwa [String.toList_ofList]
    case ordered => exact List.pairwise_cons.2 ⟨fun _ => tiles.le_first, covers.ordered⟩
    case front =>
      rintro _ ⟨⟩
      exact ⟨_, gapStands, by rwa [String.toList_ofList]⟩
    case between => exact List.isChain_cons.2 ⟨covers.front, covers.between⟩
    case back =>
      have back := covers.back
      rw [List.getLast?_cons]
      cases last : ts.getLast? with
      | none => rwa [last] at back
      | some t' => rwa [last] at back

/-- Reading by the sets of rules is scanning, with block comments counted in their mode and in no
other. A text that is scanned without fault has its tokens side by side, with nothing between them
but white space and comments. -/
theorem scan_lossless (text : String) :
    (∀ ts fault, Runs (.initial text) ts fault ↔ scan text = (ts, fault)) ∧
    (∀ s : State, s.Reached text → s.Counted) ∧
    ∀ ts, scan text = (ts, none) → Covers text 0 ts := by
  refine ⟨fun ts fault => runs_iff, fun s => State.Reached.counted, fun ts read => ?_⟩
  exact (tiles_of_scanFrom read).covers (List.nil_append _).symm rfl

/-- Comments in comments, code with a bracket and a pattern with a quote stand side by side. -/
theorem scan_lossless_packed : Covers "/*/**/*/S:=[*[a]*p*]\"\\\"\"//\n;" 0
    [⟨.identifier "S", ⟨0, 8, 8⟩, ⟨0, 9, 9⟩⟩, ⟨.define, ⟨0, 9, 9⟩, ⟨0, 11, 11⟩⟩,
      ⟨.code "[a]*p", ⟨0, 11, 11⟩, ⟨0, 20, 20⟩⟩, ⟨.pattern "\\\"", ⟨0, 20, 20⟩, ⟨0, 24, 24⟩⟩,
      ⟨.semicolon, ⟨1, 0, 27⟩, ⟨1, 1, 28⟩⟩] :=
  (scan_lossless _).2.2 _ (by decide +kernel)

end Lalr.Source
