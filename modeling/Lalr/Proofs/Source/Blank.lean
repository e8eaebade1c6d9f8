import Lalr.Proofs.Source.Front
import Mathlib.Data.List.TakeWhile

/-! What may stand between two tokens: white space, line comments and nested block comments. The
scanner takes nothing else for blank, and passes over each of them whatever stands behind. -/
namespace Lalr.Source

/-- A line feed with the carriage returns in front of it, or one carriage return. -/
inductive LineEnd : List Char → Prop
  | feed (k : Nat) : LineEnd (List.replicate k '\r' ++ ['\n'])
  | carriage : LineEnd ['\r']

/-- The rest of a block comment that has `depth` further comments open inside. Delimiters are read
from left to right, so that `/*/` opens a comment and closes none. -/
inductive Closes : Nat → List Char → Prop
  | last : Closes 0 ['*', '/']
  | inner {depth : Nat} {cs : List Char} : Closes depth cs →
      Closes (depth + 1) ('*' :: '/' :: cs)
  | opening {depth : Nat} {cs : List Char} : Closes (depth + 1) cs →
      Closes depth ('/' :: '*' :: cs)
  | char {depth : Nat} {c : Char} {cs : List Char} : ¬ ['*', '/'] <+: c :: cs →
      ¬ ['/', '*'] <+: c :: cs → Closes depth cs → Closes depth (c :: cs)

/-- A character of white space, or a comment with its end. -/
inductive Separator : List Char → Prop
  | space {c : Char} : isBlank c = true → Separator [c]
  | line {body ending : List Char} : (∀ c ∈ body, c ≠ '\r' ∧ c ≠ '\n') → LineEnd ending →
      Separator ('/' :: '/' :: (body ++ ending))
  | block {body : List Char} : Closes 0 body → Separator ('/' :: '*' :: body)

inductive Blank : List Char → Prop
  | nil : Blank []
  | cons {s cs : List Char} : Separator s → Blank cs → Blank (s ++ cs)

variable {c : Char} {depth : Nat} {body cs used rest after s : List Char}

theorem Separator.blank (separator : Separator s) : Blank s := by
  simpa using Blank.cons separator .nil

theorem Blank.append {gap : List Char} (first : Blank gap) (second : Blank cs) :
    Blank (gap ++ cs) := by
  induction first with
  | nil => exact second
  | cons separator _ ih => simpa using Blank.cons separator ih

theorem blank_of_all (blanks : ∀ c ∈ cs, isBlank c = true) : Blank cs := by
  induction cs with
  | nil => exact .nil
  | cons c cs ih =>
    have separator : Separator [c] := .space (blanks c (List.mem_cons_self ..))
    exact Blank.cons separator (ih fun d member => blanks d (List.mem_cons_of_mem _ member))

/-! ## Line ends -/

/-- The longest line end is a line feed behind carriage returns, where there is one. -/
theorem lineFeed?_eq_some_iff : lineFeed? cs = some (used, rest) ↔
    cs = used ++ rest ∧ ∃ k, used = List.replicate k '\r' ++ ['\n'] := by
  constructor
  · intro found
    refine ⟨lineFeed?_split found, ?_⟩
    fun_induction lineFeed? cs generalizing used with
    | case1 => exact ⟨0, by grind⟩
    | case2 cs ih =>
      simp only [Option.map_eq_some_iff, Prod.exists, Prod.mk.injEq] at found
      obtain ⟨more, rest', found, rfl, rfl⟩ := found
      obtain ⟨k, rfl⟩ := ih found
      exact ⟨k + 1, rfl⟩
    | case3 => cases found
  · rintro ⟨rfl, k, rfl⟩
    induction k with
    | zero => rfl
    | succ k ih => rw [List.replicate_succ, List.cons_append, List.cons_append, lineFeed?, ih]; rfl

theorem lineFeed?_spaces (found : lineFeed? cs = some (used, rest)) :
    ∀ c ∈ used, isBlank c = true := by
  obtain ⟨-, k, rfl⟩ := lineFeed?_eq_some_iff.1 found
  intro c member
  rcases List.mem_append.1 member with member | member
  · rw [List.eq_of_mem_replicate member]; rfl
  · rw [List.mem_singleton.1 member]; rfl

/-- Behind a line end the scanner may take more line ends for the same one. -/
theorem LineEnd.lineComment (ended : LineEnd s) (cs : List Char) :
    ∃ more rest, lineComment (s ++ cs) = .ok (s ++ more, rest) ∧ cs = more ++ rest ∧
      ∀ c ∈ more, isBlank c = true := by
  cases ended with
  | feed k =>
    cases k with
    | zero => exact ⟨[], cs, by simp [Source.lineComment], rfl, List.forall_mem_nil _⟩
    | succ k =>
      have found : lineFeed? (List.replicate k '\r' ++ '\n' :: cs) =
          some (List.replicate k '\r' ++ ['\n'], cs) :=
        lineFeed?_eq_some_iff.2 ⟨by simp, k, rfl⟩
      refine ⟨[], cs, ?_, rfl, List.forall_mem_nil _⟩
      simp [List.replicate_succ, Source.lineComment, found]
  | carriage =>
    cases found : lineFeed? cs with
    | none => exact ⟨[], cs, by simp [Source.lineComment, found], rfl, List.forall_mem_nil _⟩
    | some split =>
      obtain ⟨used, rest⟩ := split
      refine ⟨used, rest, by simp [Source.lineComment, found], lineFeed?_split found, ?_⟩
      exact lineFeed?_spaces found

theorem lineComment_plain (plain : ∀ c ∈ body, c ≠ '\r' ∧ c ≠ '\n')
    (found : lineComment cs = .ok (used, rest)) :
    lineComment (body ++ cs) = .ok (body ++ used, rest) := by
  induction body with
  | nil => exact found
  | cons c body ih =>
    obtain ⟨carriage, feed⟩ := plain c (List.mem_cons_self ..)
    have behind := ih fun d member => plain d (List.mem_cons_of_mem _ member)
    simp [lineComment, carriage, feed, behind]

theorem lineComment_spec (found : lineComment cs = .ok (used, rest)) :
    ∃ body ending, used = body ++ ending ∧ (∀ c ∈ body, c ≠ '\r' ∧ c ≠ '\n') ∧
      LineEnd ending := by
  fun_induction lineComment cs generalizing used with
  | case1 => cases found
  | case2 =>
    obtain ⟨rfl, -⟩ := Prod.mk.inj (Except.ok.inj found)
    exact ⟨[], _, rfl, List.forall_mem_nil _, .feed 0⟩
  | case3 rest more rest' feed =>
    obtain ⟨-, k, rfl⟩ := lineFeed?_eq_some_iff.1 feed
    obtain ⟨rfl, -⟩ := Prod.mk.inj (Except.ok.inj found)
    exact ⟨[], _, rfl, List.forall_mem_nil _, .feed (k + 1)⟩
  | case4 =>
    obtain ⟨rfl, -⟩ := Prod.mk.inj (Except.ok.inj found)
    exact ⟨[], _, rfl, List.forall_mem_nil _, .carriage⟩
  | case5 c rest feed carriage more rest' inside ih =>
    obtain ⟨rfl, rfl⟩ := Prod.mk.inj (Except.ok.inj found)
    obtain ⟨body, ending, rfl, plain, ended⟩ := ih inside
    refine ⟨c :: body, ending, rfl, ?_, ended⟩
    exact List.forall_mem_cons.2 ⟨⟨carriage, feed⟩, plain⟩
  | case6 => cases found

/-! ## Block comments -/

theorem not_pair_append {a b d : Char} (rest : List Char) :
    ¬ [a, b] <+: c :: d :: (cs ++ rest) ↔ ¬ [a, b] <+: c :: d :: cs := by
  simp [List.cons_prefix_cons]

theorem Closes.exists_cons (closes : Closes depth s) : ∃ d cs, s = d :: cs := by
  cases closes <;> exact ⟨_, _, rfl⟩

/-- A comment ends at the same delimiter whatever stands behind it. -/
theorem Closes.blockComment (closes : Closes depth s) (rest : List Char) :
    blockComment depth (s ++ rest) = .ok (s, rest) := by
  induction closes with
  | last => simp [Source.blockComment]
  | inner _ ih => simp [Source.blockComment, ih]
  | opening _ ih => simp [Source.blockComment, ih]
  | char close opening closes ih =>
    -- The delimiters that may begin here are not cut off by the end of `s`.
    obtain ⟨d, cs, rfl⟩ := closes.exists_cons
    simp only [List.cons_append] at ih ⊢
    rw [← not_pair_append rest, not_pair_iff] at close opening
    rw [Source.blockComment.eq_4 _ _ _ opening close, ih]

theorem blockComment_closes (found : blockComment depth cs = .ok (used, rest)) :
    Closes depth used := by
  fun_induction blockComment depth cs generalizing used with
  | case1 depth rest' more after inside ih =>
    obtain ⟨rfl, rfl⟩ := Prod.mk.inj (Except.ok.inj found)
    exact .opening (ih inside)
  | case2 | case5 | case7 | case8 => cases found
  | case3 =>
    obtain ⟨rfl, rfl⟩ := Prod.mk.inj (Except.ok.inj found)
    exact .last
  | case4 rest' outer more after inside ih =>
    obtain ⟨rfl, rfl⟩ := Prod.mk.inj (Except.ok.inj found)
    exact .inner (ih inside)
  | case6 depth c rest' opening close more after inside ih =>
    obtain ⟨rfl, rfl⟩ := Prod.mk.inj (Except.ok.inj found)
    obtain ⟨d, more, rfl⟩ := (ih inside).exists_cons
    obtain rfl := blockComment_split inside
    rw [List.cons_append, ← not_pair_iff, not_pair_append] at close opening
    exact .char close opening (ih inside)

/-! ## Passing over -/

/-- White space, a line comment and a block comment are all that is blank. -/
theorem blank_of_next (found : Piece.next c rest = .blank used after) : Blank used := by
  have front := Piece.next_eq_iff.1 found
  generalize c :: rest = text, piece_eq : Piece.blank used after = piece at front
  cases front with
  | space space =>
    obtain ⟨rfl, -⟩ := Piece.blank.inj piece_eq
    exact blank_of_all (List.forall_mem_cons.2 ⟨space, fun d => List.mem_takeWhile_imp⟩)
  | @line cs =>
    cases comment : lineComment cs with
    | error passed => rw [comment] at piece_eq; cases piece_eq
    | ok split =>
      rw [comment] at piece_eq
      obtain ⟨body, ending, line, plain, ended⟩ := lineComment_spec comment
      obtain ⟨rfl, -⟩ := Piece.blank.inj piece_eq
      rw [line]
      exact (Separator.line plain ended).blank
  | @block cs =>
    cases comment : blockComment 0 cs with
    | error passed => rw [comment] at piece_eq; cases piece_eq
    | ok split =>
      rw [comment] at piece_eq
      obtain ⟨rfl, -⟩ := Piece.blank.inj piece_eq
      exact (Separator.block (blockComment_closes comment)).blank
  | _ => cases piece_eq

/-- White space is passed over in one piece, or character by character. -/
theorem scanFrom_dropWhile (l : Location) (cs : List Char) :
    scanFrom (l.afterAll (cs.takeWhile isBlank)) (cs.dropWhile isBlank) = scanFrom l cs := by
  cases cs with
  | nil => rfl
  | cons c rest =>
    cases space : isBlank c with
    | false => simp [space]
    | true =>
      rw [scanFrom_of_blank (Front.space space).next_eq, List.takeWhile_cons_of_pos space,
        List.dropWhile_cons_of_pos space]

theorem scanFrom_space (space : isBlank c = true) (l : Location) (cs : List Char) :
    scanFrom l (c :: cs) = scanFrom (l.after c) cs := by
  rw [← scanFrom_dropWhile, ← scanFrom_dropWhile (l.after c), List.takeWhile_cons_of_pos space,
    List.dropWhile_cons_of_pos space]
  rfl

theorem scanFrom_spaces (spaces : ∀ c ∈ s, isBlank c = true) (l : Location) (cs : List Char) :
    scanFrom l (s ++ cs) = scanFrom (l.afterAll s) cs := by
  induction s generalizing l with
  | nil => rfl
  | cons c s ih =>
    obtain ⟨space, spaces⟩ := List.forall_mem_cons.1 spaces
    rw [List.cons_append, scanFrom_space space, ih spaces]
    rfl

theorem Separator.scanFrom (separator : Separator s) (l : Location) (cs : List Char) :
    scanFrom l (s ++ cs) = scanFrom (l.afterAll s) cs := by
  cases separator with
  | space space => exact scanFrom_space space l cs
  | @line body ending plain ended =>
    obtain ⟨more, rest, comment, rfl, spaces⟩ := ended.lineComment cs
    have found : Piece.next '/' ('/' :: (body ++ ending) ++ (more ++ rest)) =
        .blank ('/' :: '/' :: (body ++ ending) ++ more) rest := by
      have comment := lineComment_plain plain comment
      simp [Piece.next, isBlank, commentPiece, comment]
    rw [List.cons_append, scanFrom_of_blank found, Location.afterAll_append,
      scanFrom_spaces spaces]
  | @block body closes =>
    have found : Piece.next '/' ('*' :: body ++ cs) = .blank ('/' :: '*' :: body) cs := by
      simp [Piece.next, isBlank, commentPiece, closes.blockComment]
    rw [List.cons_append, scanFrom_of_blank found]

/-- What is blank is passed over, whatever stands behind it. -/
theorem Blank.scanFrom (blank : Blank s) (l : Location) (cs : List Char) :
    scanFrom l (s ++ cs) = scanFrom (l.afterAll s) cs := by
  induction blank generalizing l with
  | nil => rfl
  | cons separator _ ih =>
    rw [List.append_assoc, separator.scanFrom, ih, Location.afterAll_append]

end Lalr.Source
