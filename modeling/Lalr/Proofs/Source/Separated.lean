import Lalr.Proofs.Source.Blank
import Mathlib.Data.List.Forall2

/-! Scanning a text and, behind blank space, another one: both are scanned as if they stood
alone. -/
namespace Lalr.Source

variable {body cs used after behind : List Char} {t : Token} {l l' : Location} {n : Nat}

/-! ## Tokens in front of another text -/

/-- Where no name goes on, a name ends as it does at the end of a text. -/
theorem takeWhile_append_apart {p : Char → Bool} (cs : List Char)
    (apart : ∀ c ∈ behind.head?, p c = false) :
    (cs ++ behind).takeWhile p = cs.takeWhile p := by
  cases behind with
  | nil => rw [List.append_nil]
  | cons d behind =>
    have other : p d = false := apart d rfl
    rw [List.takeWhile_append, List.takeWhile_cons_of_neg (by simp [other]), List.append_nil]
    split
    next all => exact ((List.takeWhile_prefix p).eq_of_length all).symm
    next => rfl

theorem dropWhile_append_apart {p : Char → Bool} (cs : List Char)
    (apart : ∀ c ∈ behind.head?, p c = false) :
    (cs ++ behind).dropWhile p = cs.dropWhile p ++ behind := by
  have split := List.takeWhile_append_dropWhile (p := p) (l := cs ++ behind)
  rw [takeWhile_append_apart cs apart] at split
  refine List.append_cancel_left (split.trans ?_)
  rw [← List.append_assoc, List.takeWhile_append_dropWhile]

/-- A token ends where it does, whatever stands behind it and goes on with no name. -/
theorem Front.append_token (front : Front cs (.token t used after))
    (apart : ∀ c ∈ behind.head?, Text.isXidContinue c = false) :
    Front (cs ++ behind) (.token t used (after ++ behind)) := by
  generalize piece_eq : Piece.token t used after = piece at front
  cases front with
  | pattern found =>
    obtain ⟨rfl, rfl, rfl⟩ := Piece.token.inj piece_eq
    obtain ⟨rfl, escaped⟩ := patternBody_eq_some_iff.1 found
    exact .pattern (patternBody_eq_some_iff.2 ⟨by simp, escaped⟩)
  | code found =>
    obtain ⟨rfl, rfl, rfl⟩ := Piece.token.inj piece_eq
    obtain ⟨rfl, absent⟩ := codeBody_eq_some_iff.1 found
    exact .code (codeBody_eq_some_iff.2 ⟨by simp, absent⟩)
  | @identifier c rest start =>
    obtain ⟨rfl, rfl, rfl⟩ := Piece.token.inj piece_eq
    rw [List.cons_append, ← takeWhile_append_apart rest apart, ← dropWhile_append_apart rest apart]
    exact .identifier start
  | fixed member =>
    obtain ⟨rfl, rfl, rfl⟩ := Piece.token.inj piece_eq
    rw [List.append_assoc]
    exact .fixed member
  | line | block => exact absurd piece_eq.symm (commentPiece_ne_token _)
  | _ => cases piece_eq

/-- Scanning goes on behind a text without fault as it would start there. -/
theorem scanFrom_append {ts : List Located} (read : scanFrom l cs = (ts, none))
    (apart : ∀ c ∈ behind.head?, Text.isXidContinue c = false) :
    scanFrom l (cs ++ behind) = (ts ++ (scanFrom (l.afterAll cs) behind).1,
      (scanFrom (l.afterAll cs) behind).2) := by
  induction l, cs using scan_induction generalizing ts with
  | nil l =>
    rw [scanFrom] at read
    obtain ⟨rfl, -⟩ := Prod.mk.inj read
    rfl
  | blank l c rest used after found ih =>
    rw [scanFrom_of_blank found] at read
    rw [(split_of_blank found).1, List.append_assoc, (blank_of_next found).scanFrom, ih read,
      Location.afterAll_append]
  | token l c rest t used after found ih =>
    have longer : Piece.next c (rest ++ behind) = .token t used (after ++ behind) :=
      ((Piece.next_eq_iff.1 found).append_token apart).next_eq
    rw [scanFrom_of_token found] at read
    obtain ⟨rfl, sound⟩ := Prod.mk.inj read
    rw [List.cons_append, scanFrom_of_token longer, ih (Prod.ext rfl sound),
      (split_of_token found).1, Location.afterAll_append]
    rfl
  | broken l c rest passed found =>
    rw [scanFrom_of_broken found] at read
    cases read

/-- A text is blank if it is scanned to its end and has no tokens. -/
theorem blank_iff : Blank cs ↔ scanFrom l cs = ([], none) := by
  constructor
  · intro blank
    have passed := blank.scanFrom l []
    rwa [List.append_nil, scanFrom] at passed
  · intro read
    induction l, cs using scan_induction with
    | nil => exact .nil
    | blank l c rest used after found ih =>
      rw [scanFrom_of_blank found] at read
      rw [(split_of_blank found).1]
      exact (blank_of_next found).append (ih read)
    | token l c rest t used after found =>
      rw [scanFrom_of_token found] at read
      cases read
    | broken l c rest passed found =>
      rw [scanFrom_of_broken found] at read
      cases read

/-- No name goes on behind a token into what is blank. -/
theorem Blank.apart (blank : Blank cs) : ∀ c ∈ cs.head?, Text.isXidContinue c = false := by
  induction blank with
  | nil => nofun
  | cons separator _ ih =>
    cases separator with
    | @space d space =>
      rintro c ⟨⟩
      have spaces : d = ' ' ∨ d = '\t' ∨ d = '\r' ∨ d = '\n' := by
        simpa [isBlank, or_assoc] using space
      rcases spaces with rfl | rfl | rfl | rfl <;> decide
    | line | block =>
      rintro c ⟨⟩
      decide

/-! ## Scanning from another location -/

/-- The same token, `n` bytes further on. -/
structure Located.Moved (n : Nat) (a b : Located) : Prop where
  token : b.token = a.token
  first : b.first.offset = n + a.first.offset
  last : b.last.offset = n + a.last.offset

theorem offset_afterAll_moved (further : l'.offset = n + l.offset) (used : List Char) :
    (l'.afterAll used).offset = n + (l.afterAll used).offset := by
  rw [Location.offset_afterAll, Location.offset_afterAll, further, Nat.add_assoc]

theorem scanFrom_moved (further : l'.offset = n + l.offset) (cs : List Char) :
    List.Forall₂ (Located.Moved n) (scanFrom l cs).1 (scanFrom l' cs).1 ∧
      (scanFrom l' cs).2.map Location.offset =
        (scanFrom l cs).2.map fun fault => n + fault.offset := by
  induction l, cs using scan_induction generalizing l' with
  | nil => simp [scanFrom]
  | blank l c rest used after found ih =>
    rw [scanFrom_of_blank found, scanFrom_of_blank found]
    exact ih (offset_afterAll_moved further used)
  | token l c rest t used after found ih =>
    rw [scanFrom_of_token found, scanFrom_of_token found]
    obtain ⟨tokens, fault⟩ := ih (offset_afterAll_moved further used)
    exact ⟨.cons ⟨rfl, further, offset_afterAll_moved further used⟩ tokens, fault⟩
  | broken l c rest passed found =>
    rw [scanFrom_of_broken found, scanFrom_of_broken found]
    exact ⟨.nil, congrArg some (offset_afterAll_moved further passed)⟩

/-- Two texts with white space or comments between them are scanned as if each stood alone. The
first one has no fault, so it does not end inside a pattern, code or a comment. -/
theorem scan_separated {a s b : String} {ts : List Located} (read : scan a = (ts, none))
    (blank : Blank s.toList) (apart : s ≠ "") :
    ∃ us, (scan (a ++ s ++ b)).1 = ts ++ us ∧
      List.Forall₂ (Located.Moved (a ++ s).utf8ByteSize) (scan b).1 us ∧
      (scan (a ++ s ++ b)).2.map Location.offset =
        (scan b).2.map fun fault => (a ++ s).utf8ByteSize + fault.offset := by
  obtain ⟨c, rest, text⟩ : ∃ c rest, s.toList = c :: rest :=
    List.exists_cons_of_ne_nil (mt String.toList_eq_nil_iff.1 apart)
  have ends : ∀ c ∈ (s.toList ++ b.toList).head?, Text.isXidContinue c = false := by
    rw [text] at blank ⊢
    exact blank.apart
  have behind : ((({} : Location).afterAll a.toList).afterAll s.toList).offset =
      (a ++ s).utf8ByteSize + ({} : Location).offset := by
    rw [Location.offset_afterAll, Location.offset_afterAll, String.ofList_toList,
      String.ofList_toList, String.utf8ByteSize_append, Nat.add_assoc, Nat.add_comm]
  rw [scan, String.toList_append, String.toList_append, List.append_assoc,
    scanFrom_append read ends, blank.scanFrom]
  obtain ⟨tokens, fault⟩ := scanFrom_moved behind b.toList
  exact ⟨_, rfl, tokens, fault⟩

/-- A comment inside a comment stands between a keyword and a pattern that is not closed. -/
theorem scan_separated_nested : ∃ us,
    (scan ("@rule" ++ "/*a/*b*/\"*/" ++ "S \"ab")).1 = ⟨.keyword .rule, {}, ⟨0, 5, 5⟩⟩ :: us ∧
      List.Forall₂ (Located.Moved 16) (scan "S \"ab").1 us ∧
      (scan ("@rule" ++ "/*a/*b*/\"*/" ++ "S \"ab")).2.map Location.offset =
        (scan "S \"ab").2.map fun fault => 16 + fault.offset := by
  have read : scan "@rule" = ([⟨.keyword .rule, {}, ⟨0, 5, 5⟩⟩], none) := by decide +kernel
  have nested : scanFrom {} "/*a/*b*/\"*/".toList = ([], none) := by decide +kernel
  exact scan_separated read (blank_iff.2 nested) (by decide)

end Lalr.Source
