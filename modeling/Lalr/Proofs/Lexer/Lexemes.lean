import Lalr.Proofs.Lexer.Spelling

/-! Lexemes against the spelling of patterns: what is read off the front of a text is spelled as it
should be, and whatever is spelled so is read. -/
namespace Lalr.Lexer

open Spelling

variable {α : Type} {c : Char} {w rest : List Char} {k k' : Cursor}

/-- The reader takes a spelling off the front of a text, whatever follows, and nothing else. -/
structure Recognizes (read : Cursor → Except PatternError (α × Cursor))
    (spelled : List Char → α → Prop) : Prop where
  sound : ∀ k a k', read k = .ok (a, k') → ∃ w, k.ahead = w ++ k'.ahead ∧ spelled w a
  complete : ∀ w a, spelled w a → ∀ rest offset, ∃ offset',
    read ⟨w ++ rest, offset⟩ = .ok (a, ⟨rest, offset'⟩)

/-! ## Escapes -/

theorem hexDigit?_of_digit {n : Nat} (digit : HexDigit c n) : hexDigit? c = some (UInt8.ofNat n) := by
  cases digit with
  | decimal low high =>
    have low : 48 ≤ c.toNat := low
    have high : c.toNat ≤ 57 := high
    simp [hexDigit?, low, high]
  | lower low high =>
    have low : 97 ≤ c.toNat := low
    have high : c.toNat ≤ 102 := high
    have value : c.toNat - 'a'.toNat + 10 = c.toNat - 87 := by simp; omega
    rw [value, hexDigit?]
    simp [low, high, show ¬c.toNat ≤ 57 by omega]
  | upper low high =>
    have low : 65 ≤ c.toNat := low
    have high : c.toNat ≤ 70 := high
    have value : c.toNat - 'A'.toNat + 10 = c.toNat - 55 := by simp; omega
    rw [value, hexDigit?]
    simp [low, high, show ¬c.toNat ≤ 57 by omega, show ¬97 ≤ c.toNat by omega]

theorem hexDigit?_iff {b : UInt8} :
    hexDigit? c = some b ↔ ∃ n, HexDigit c n ∧ b = UInt8.ofNat n := by
  constructor
  · intro value
    obtain ⟨n, digit⟩ : ∃ n, HexDigit c n := by
      unfold hexDigit? at value
      simp only [Bool.and_eq_true, decide_eq_true_eq] at value
      split at value
      next decimal => exact ⟨_, .decimal decimal.1 decimal.2⟩
      split at value
      next lower => exact ⟨_, .lower lower.1 lower.2⟩
      split at value
      next upper => exact ⟨_, .upper upper.1 upper.2⟩
      cases value
    exact ⟨n, digit, Option.some.inj (value.symm.trans (hexDigit?_of_digit digit))⟩
  · rintro ⟨n, digit, rfl⟩
    exact hexDigit?_of_digit digit

theorem hexByte?_iff {b : UInt8} : hexByte? w = some (b, rest) ↔
    ∃ c d m n, w = c :: d :: rest ∧ HexDigit c m ∧ HexDigit d n ∧
      b = UInt8.ofNat (16 * m + n) := by
  constructor
  · intro value
    unfold hexByte? at value
    split at value
    · next c d more =>
      simp only [Option.bind_eq_bind, Option.bind_eq_some_iff, Option.pure_def, Option.some.injEq,
        Prod.mk.injEq] at value
      obtain ⟨high, first, low, second, rfl, rfl⟩ := value
      obtain ⟨m, digit, rfl⟩ := hexDigit?_iff.1 first
      obtain ⟨n, digit', rfl⟩ := hexDigit?_iff.1 second
      exact ⟨c, d, m, n, rfl, digit, digit', by simp⟩
    · cases value
  · rintro ⟨c, d, m, n, rfl, first, second, rfl⟩
    simp [hexByte?, hexDigit?_iff.2 ⟨m, first, rfl⟩, hexDigit?_iff.2 ⟨n, second, rfl⟩]

@[simp] theorem members_digits : ByteSet.digits.members = span 48 57 := ByteSet.members_range

@[simp] theorem members_wordBytes : ByteSet.wordBytes.members = Spelling.wordBytes := by
  simp [ByteSet.wordBytes, Spelling.wordBytes, Set.union_comm]

@[simp] theorem members_spaces : ByteSet.spaces.members = Spelling.spaces := by
  ext b
  simp [ByteSet.members, ByteSet.spaces, Spelling.spaces, span, UInt8.le_iff_toNat_le,
    ← UInt8.toNat_inj]
  omega

theorem escape_ofLetter (other : c ≠ 'x') : Escape [c] (.ofLetter c) := by
  unfold Escaped.ofLetter
  split
  case h_1 | h_2 | h_3 | h_4 => exact .control rfl
  case h_5 | h_6 | h_7 | h_8 | h_9 | h_10 => exact .set (by simp [shorthand])
  case h_11 =>
    apply Escape.char other
    · unfold controlByte
      split <;> trivial
    · unfold shorthand
      split <;> trivial

theorem Spelling.Escape.eq_ofLetter {e : Escaped} (h : Escape [c] e) : e = .ofLetter c := by
  cases h with
  | control named =>
    unfold controlByte at named
    split at named <;> simp_all [Escaped.ofLetter]
  | set named =>
    unfold shorthand at named
    split at named
    case h_7 => cases named
    all_goals
      refine congrArg Escaped.set (ByteSet.members_injective ?_)
      simp [← Option.some.inj named]
  | char other notControl notSet =>
    unfold Escaped.ofLetter
    split <;> simp_all [controlByte, shorthand]

theorem escape_recognizes : Recognizes escape Escape where
  sound := by
    intro k e k' read
    unfold escape at read
    split at read
    · cases read
    · next rest ahead =>
      split at read
      · next b rest' hex =>
        cases read
        obtain ⟨c, d, m, n, rfl, first, second, rfl⟩ := hexByte?_iff.1 hex
        exact ⟨['x', c, d], by simp [ahead], .hex first second⟩
      · cases read
    · next c rest other ahead =>
      cases read
      exact ⟨[c], by simp [ahead, Cursor.behind], escape_ofLetter other⟩
  complete := by
    intro w e spelled rest offset
    -- All escapes but one are a single letter, which decides what is read.
    by_cases hex : ∃ c d m n, w = ['x', c, d] ∧ HexDigit c m ∧ HexDigit d n ∧
      e = .byte (UInt8.ofNat (16 * m + n))
    · obtain ⟨c, d, m, n, rfl, first, second, rfl⟩ := hex
      refine ⟨offset + 3, ?_⟩
      simp [escape, hexByte?_iff.2 ⟨c, d, m, n, rfl, first, second, rfl⟩]
    · obtain ⟨c, rfl, other⟩ : ∃ c, w = [c] ∧ c ≠ 'x' := by
        cases spelled with
        | control named => exact ⟨_, rfl, by rintro rfl; cases named⟩
        | set named => exact ⟨_, rfl, by rintro rfl; cases named⟩
        | char other => exact ⟨_, rfl, other⟩
        | hex first second => exact absurd ⟨_, _, _, _, rfl, first, second, rfl⟩ hex
      refine ⟨offset + c.utf8Size, ?_⟩
      rw [spelled.eq_ofLetter]
      simp [escape, Cursor.behind]

/-! ## Classes -/

inductive Spelling.Member : List Char → ClassMember → Prop where
  | byte {w : List Char} {b : UInt8} : Bound w b → Member w (.byte b)
  | set {w : List Char} {s : ByteSet} : Escape w (.set s) → Member ('\\' :: w) (.set s)

theorem map_ofChar_eq_ok {k'' : Cursor} {m : ClassMember} :
    (ClassMember.ofChar k c).map (·, k') = .ok (m, k'') ↔
      c.toNat < 128 ∧ m = .byte (UInt8.ofNat c.toNat) ∧ k'' = k' := by
  unfold ClassMember.ofChar
  split
  · next ascii => simp [Except.map, ascii, eq_comm]
  · next other => simp [Except.map, other]

theorem classMember_sound {m : ClassMember} (other : c ≠ ']')
    (read : classMember k c rest = .ok (m, k')) :
    ∃ w, c :: rest = w ++ k'.ahead ∧ Member w m := by
  unfold classMember at read
  dsimp only at read
  split at read
  · next backslash =>
    subst backslash
    split at read
    · cases read
    · next b k'' escaped =>
      cases read
      obtain ⟨w, ahead, spelled⟩ := escape_recognizes.sound _ _ _ escaped
      exact ⟨'\\' :: w, congrArg _ ahead, .byte (.byte spelled)⟩
    · next s k'' escaped =>
      cases read
      obtain ⟨w, ahead, spelled⟩ := escape_recognizes.sound _ _ _ escaped
      exact ⟨'\\' :: w, congrArg _ ahead, .set spelled⟩
    · next d k'' escaped =>
      obtain ⟨w, ahead, spelled⟩ := escape_recognizes.sound _ _ _ escaped
      obtain ⟨ascii, rfl, rfl⟩ := map_ofChar_eq_ok.1 read
      exact ⟨'\\' :: w, congrArg _ ahead, .byte (.char spelled ascii)⟩
  · next plain =>
    obtain ⟨ascii, rfl, rfl⟩ := map_ofChar_eq_ok.1 read
    exact ⟨[c], rfl, .byte (.plain other plain ascii)⟩

theorem Spelling.Member.read {m : ClassMember} (h : Member w m) (rest : List Char) (offset : Nat) :
    ∃ c more offset', w = c :: more ∧ c ≠ ']' ∧
      classMember ⟨c :: (more ++ rest), offset⟩ c (more ++ rest) = .ok (m, ⟨rest, offset'⟩) := by
  cases h with
  | set spelled =>
    obtain ⟨offset', escaped⟩ :=
      escape_recognizes.complete _ _ spelled rest (offset + '\\'.utf8Size)
    exact ⟨_, _, offset', rfl, by decide, by simp [classMember, Cursor.behind, escaped]⟩
  | byte bound =>
    cases bound with
    | @plain c other plain ascii =>
      refine ⟨c, [], offset + c.utf8Size, rfl, other, ?_⟩
      rw [classMember, if_neg plain]
      exact map_ofChar_eq_ok.2 ⟨ascii, rfl, rfl⟩
    | byte spelled =>
      obtain ⟨offset', escaped⟩ :=
        escape_recognizes.complete _ _ spelled rest (offset + '\\'.utf8Size)
      exact ⟨_, _, offset', rfl, by decide, by simp [classMember, Cursor.behind, escaped]⟩
    | char spelled ascii =>
      obtain ⟨offset', escaped⟩ :=
        escape_recognizes.complete _ _ spelled rest (offset + '\\'.utf8Size)
      refine ⟨_, _, offset', rfl, by decide, ?_⟩
      simp only [classMember, Cursor.behind, escaped, ↓reduceIte]
      exact map_ofChar_eq_ok.2 ⟨ascii, rfl, rfl⟩

theorem rangeEnd?_eq_none : rangeEnd? w = none ↔ ¬RangeAhead w := by
  unfold rangeEnd? RangeAhead
  split
  · next c rest => simp
  · next none => simpa using fun c rest same => (none c rest same).elim

theorem rangeEnd?_eq_some_iff :
    rangeEnd? w = some (c, rest) ↔ w = '-' :: c :: rest ∧ c ≠ ']' := by
  constructor
  · intro found
    obtain rfl := rangeEnd?_eq found
    exact ⟨rfl, by simpa [rangeEnd?] using found⟩
  · rintro ⟨rfl, other⟩
    simp [rangeEnd?, other]

/-- The members of a class are added to what was there. -/
theorem classMembers_sound {start : Nat} {set set' : ByteSet}
    (read : classMembers start set k = .ok (set', k')) :
    ∃ w S, k.ahead = w ++ k'.ahead ∧ Members w S ∧ set'.members = set.members ∪ S := by
  fun_induction classMembers start set k with
  | case1 | case3 | case6 | case7 | case8 => cases read
  | case2 set k rest ahead =>
    cases read
    exact ⟨[']'], ∅, by simp [ahead, Cursor.behind], .close, by simp⟩
  | case4 set k c rest ahead other s k₁ member ih =>
    obtain ⟨w, S, eq, members, union⟩ := ih read
    obtain ⟨v, front, spelled⟩ := classMember_sound other member
    cases spelled with
    | set spelled =>
    refine ⟨_ ++ w, s.members ∪ S, ?_, .set spelled members, ?_⟩
    · rw [ahead, front, eq]
      simp
    · rw [union, ByteSet.members_union, Set.union_assoc]
  | case5 set k c rest ahead other lo k₁ member noRange ih =>
    obtain ⟨w, S, eq, members, union⟩ := ih read
    obtain ⟨v, front, spelled⟩ := classMember_sound other member
    cases spelled with
    | byte bound =>
    refine ⟨v ++ w, {lo} ∪ S, ?_, .single bound ?_ members, ?_⟩
    · rw [ahead, front, eq]
      simp
    · intro range
      exact rangeEnd?_eq_none.1 noRange (eq ▸ range.append _)
    · rw [union, ByteSet.members_insert]
      grind
  | case9 set k c rest ahead other lo k₁ member d more range hi k₂ upper order ih =>
    obtain ⟨w, S, eq, members, union⟩ := ih read
    obtain ⟨v, front, spelled⟩ := classMember_sound other member
    obtain ⟨minus, other'⟩ := rangeEnd?_eq_some_iff.1 range
    obtain ⟨v', front', spelled'⟩ := classMember_sound other' upper
    cases spelled with
    | byte lower =>
    cases spelled' with
    | byte upper =>
    refine ⟨v ++ '-' :: v' ++ w, span lo hi ∪ S, ?_, .range lower upper ?_ members, ?_⟩
    · rw [ahead, front, minus, front', eq]
      simp
    · exact UInt8.not_lt.1 order
    · rw [union, ByteSet.members_union, ByteSet.members_range, Set.union_assoc]

section Steps

variable {start offset : Nat} {set : ByteSet}

theorem classMembers_set {s : ByteSet} (other : c ≠ ']')
    (member : classMember ⟨c :: rest, offset⟩ c rest = .ok (.set s, k)) :
    classMembers start set ⟨c :: rest, offset⟩ = classMembers start (set ∪ s) k := by
  rw [classMembers]
  simp only [if_neg other]
  split <;> simp_all

theorem classMembers_single {b : UInt8} (other : c ≠ ']')
    (member : classMember ⟨c :: rest, offset⟩ c rest = .ok (.byte b, k))
    (noRange : ¬RangeAhead k.ahead) :
    classMembers start set ⟨c :: rest, offset⟩ = classMembers start (set.insert b) k := by
  have noRange := rangeEnd?_eq_none.2 noRange
  rw [classMembers]
  simp only [if_neg other]
  split <;> simp_all
  split <;> simp_all

theorem classMembers_range {lo hi : UInt8} {d : Char} {more : List Char} {offset' : Nat}
    (other : c ≠ ']') (other' : d ≠ ']')
    (lower : classMember ⟨c :: rest, offset⟩ c rest = .ok (.byte lo, ⟨'-' :: d :: more, offset'⟩))
    (upper : classMember ⟨d :: more, offset' + 1⟩ d more = .ok (.byte hi, k)) (order : lo ≤ hi) :
    classMembers start set ⟨c :: rest, offset⟩ = classMembers start (set ∪ .range lo hi) k := by
  have range : rangeEnd? ('-' :: d :: more) = some (d, more) :=
    rangeEnd?_eq_some_iff.2 ⟨rfl, other'⟩
  have order := UInt8.not_lt.2 order
  rw [classMembers]
  simp only [if_neg other]
  split <;> simp_all
  split <;> simp_all
  split <;> simp_all

end Steps

theorem Spelling.Members.read {S : Set UInt8} (h : Members w S) (start : Nat) (set : ByteSet)
    (rest : List Char) (offset : Nat) : ∃ set' offset',
      classMembers start set ⟨w ++ rest, offset⟩ = .ok (set', ⟨rest, offset'⟩) ∧
        set'.members = set.members ∪ S := by
  induction h generalizing set offset with
  | close =>
    refine ⟨set, offset + ']'.utf8Size, ?_, by simp⟩
    rw [classMembers]
    simp [Cursor.behind]
  | @set w after s S spelled _ ih =>
    obtain ⟨c, more, here, eq, other, member⟩ := (Member.set spelled).read (after ++ rest) offset
    obtain ⟨set', offset', read, union⟩ := ih (set ∪ s) here
    refine ⟨set', offset', ?_, by rw [union, ByteSet.members_union, Set.union_assoc]⟩
    rw [eq, List.append_assoc]
    exact (classMembers_set other member).trans read
  | @single v after b S bound noRange members ih =>
    obtain ⟨c, more, here, eq, other, member⟩ := (Member.byte bound).read (after ++ rest) offset
    obtain ⟨set', offset', read, union⟩ := ih (set.insert b) here
    refine ⟨set', offset', ?_, by rw [union, ByteSet.members_insert]; grind⟩
    rw [eq, List.append_assoc]
    exact (classMembers_single other member (mt members.rangeAhead noRange)).trans read
  | @range u v after lo hi S lower upper order _ ih =>
    obtain ⟨c, more, here, eq, other, member⟩ :=
      (Member.byte lower).read ('-' :: v ++ (after ++ rest)) offset
    obtain ⟨d, more', here', eq', other', member'⟩ :=
      (Member.byte upper).read (after ++ rest) (here + 1)
    obtain ⟨set', offset', read, union⟩ := ih (set ∪ .range lo hi) here'
    refine ⟨set', offset', ?_, ?_⟩
    · rw [eq'] at member
      rw [eq, eq', List.append_assoc, List.append_assoc]
      exact (classMembers_range other other' member member' order).trans read
    · rw [union, ByteSet.members_union, ByteSet.members_range, Set.union_assoc]

theorem closedClass_eq_ok {start : Nat} {set set' : ByteSet} :
    closedClass start set k = .ok (set', k') ↔ set.members.Nonempty ∧ set' = set ∧ k' = k := by
  unfold closedClass
  split
  · next empty => simp [ByteSet.isEmpty_iff.1 empty]
  · next filled =>
    have filled := Set.nonempty_iff_ne_empty.2 (mt ByteSet.isEmpty_iff.2 filled)
    simp [filled, eq_comm]

theorem bracketClass_recognizes (start : Nat) : Recognizes (bracketClass start)
    fun w s => Class w s.members ∧ s.members.Nonempty where
  sound := by
    intro k s k' read
    unfold bracketClass at read
    split at read
    · next rest ahead =>
      split at read
      · cases read
      · next set k₁ members =>
        obtain ⟨filled, rfl, rfl⟩ := closedClass_eq_ok.1 read
        obtain ⟨w, S, front, spelled, eq⟩ := classMembers_sound members
        refine ⟨'^' :: w, ahead.trans (congrArg _ front), ?_, filled⟩
        rw [ByteSet.members_complement, eq, ByteSet.members_empty, Set.empty_union]
        exact .negated spelled
    · next plain =>
      split at read
      · cases read
      · next set k₁ members =>
        obtain ⟨filled, rfl, rfl⟩ := closedClass_eq_ok.1 read
        obtain ⟨w, S, front, spelled, eq⟩ := classMembers_sound members
        refine ⟨w, front, ?_, filled⟩
        rw [eq, ByteSet.members_empty, Set.empty_union]
        refine .plain (fun negated => ?_) spelled
        obtain ⟨rest, rfl⟩ := List.head?_eq_some_iff.1 negated
        exact plain _ front
  complete := by
    rintro w s ⟨spelled, filled⟩ rest offset
    -- The mask that is read is the one with these members.
    generalize same : s.members = S at spelled filled
    cases spelled with
    | @plain w S plain spelled =>
      obtain ⟨set, offset', read, eq⟩ := spelled.read start ∅ rest offset
      rw [ByteSet.members_empty, Set.empty_union, ← same] at eq
      obtain rfl := ByteSet.members_injective eq
      refine ⟨offset', ?_⟩
      rw [← same] at filled
      have other : ∀ more, w ++ rest ≠ '^' :: more := by
        have last := spelled.getLast?
        cases w <;> simp_all
      unfold bracketClass
      split
      · next more ahead => exact absurd ahead (other more)
      · simpa [read] using closedClass_eq_ok.2 ⟨filled, rfl, rfl⟩
    | @negated w S spelled =>
      obtain ⟨set, offset', read, eq⟩ := spelled.read start ∅ rest (offset + '^'.utf8Size)
      rw [ByteSet.members_empty, Set.empty_union] at eq
      rw [← eq, ← ByteSet.members_complement] at same filled
      obtain rfl := ByteSet.members_injective same
      refine ⟨offset', ?_⟩
      simpa [bracketClass, Cursor.behind, read] using closedClass_eq_ok.2 ⟨filled, rfl, rfl⟩

/-! ## Lexemes -/

inductive Spelling.Chunk : List Char → Lexeme → Prop where
  | leaf {w : List Char} {p : Pattern} : Leaf w p → Chunk w (.atom p)
  | openGroup (offset : Nat) : Chunk ['('] (.openGroup offset)
  | closeGroup (offset : Nat) : Chunk [')'] (.closeGroup offset)
  | bar (offset : Nat) : Chunk ['|'] (.bar offset)
  | repetition (r : Repetition) (offset : Nat) : Chunk [r.operator] (.repetition r offset)

theorem members_dot : ByteSet.newline.complement.members = {10}ᶜ := by simp [ByteSet.newline]

theorem Lexeme.next_sound {l : Lexeme} (read : Lexeme.next k c rest = .ok (l, k')) :
    ∃ w, c :: rest = w ++ k'.ahead ∧ Chunk w l := by
  unfold Lexeme.next at read
  dsimp only at read
  split at read
  case h_1 => cases read; exact ⟨['('], rfl, .openGroup _⟩
  case h_2 => cases read; exact ⟨[')'], rfl, .closeGroup _⟩
  case h_3 => cases read; exact ⟨['|'], rfl, .bar _⟩
  case h_4 => cases read; exact ⟨['*'], rfl, .repetition .star _⟩
  case h_5 => cases read; exact ⟨['+'], rfl, .repetition .plus _⟩
  case h_6 => cases read; exact ⟨['?'], rfl, .repetition .opt _⟩
  case h_7 => cases read; exact ⟨['.'], rfl, .leaf (.dot members_dot)⟩
  case h_8 =>
    cases closed : bracketClass k.offset (k.behind '[' rest) with
    | error e => simp [closed, Except.map] at read
    | ok found =>
      simp only [closed, Except.map, Except.ok.injEq, Prod.mk.injEq] at read
      obtain ⟨rfl, rfl⟩ := read
      obtain ⟨w, front, spelled, filled⟩ := (bracketClass_recognizes _).sound _ _ _ closed
      exact ⟨'[' :: w, congrArg _ front, .leaf (.bracket spelled filled)⟩
  case h_9 =>
    cases escaped : escape (k.behind '\\' rest) with
    | error e => simp [escaped, Except.map] at read
    | ok found =>
      obtain ⟨e, k₁⟩ := found
      obtain ⟨w, front, spelled⟩ := escape_recognizes.sound _ _ _ escaped
      simp only [escaped, Except.map, Except.ok.injEq] at read
      refine ⟨'\\' :: w, ?_, ?_⟩ <;> cases e <;> cases read
      · exact congrArg _ front
      · exact congrArg _ front
      · exact congrArg _ front
      · exact .leaf (.byte spelled)
      · exact .leaf (.set spelled)
      · exact .leaf (.char spelled)
  case h_10 =>
    cases read
    exact ⟨[c], rfl, .leaf (.plain (by simp_all [special]))⟩

/-- One lexeme is read from the text of a leaf. -/
theorem Spelling.Leaf.lexemes_eq {p : Pattern} (h : Leaf w p) (rest : List Char) (offset : Nat) :
    ∃ offset', lexemes ⟨w ++ rest, offset⟩ = .atom p :: lexemes ⟨rest, offset'⟩ := by
  cases h with
  | @plain c plain =>
    refine ⟨offset + c.utf8Size, lexemes_of_next ?_⟩
    unfold Lexeme.next
    simp only [special, List.mem_cons, not_or] at plain
    split <;> simp_all [Cursor.behind]
  | dot eq =>
    rw [← members_dot] at eq
    obtain rfl := ByteSet.members_injective eq
    exact ⟨_, lexemes_of_next rfl⟩
  | @bracket w s spelled filled =>
    obtain ⟨offset', read⟩ :=
      (bracketClass_recognizes offset).complete w s ⟨spelled, filled⟩ rest (offset + '['.utf8Size)
    refine ⟨offset', lexemes_of_next ?_⟩
    simp [Lexeme.next, Cursor.behind, read, Except.map]
  | byte spelled | set spelled | char spelled =>
    obtain ⟨offset', read⟩ :=
      escape_recognizes.complete _ _ spelled rest (offset + '\\'.utf8Size)
    refine ⟨offset', lexemes_of_next ?_⟩
    simp [Lexeme.next, Cursor.behind, read, Except.map]

end Lalr.Lexer
