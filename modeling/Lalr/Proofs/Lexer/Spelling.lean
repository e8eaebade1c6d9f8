import Lalr.Lexer.PatternParser
import Mathlib.Data.Set.Insert

/-! How patterns are spelled. Each predicate pairs a text with what it stands for. Nothing here
reads a text: where a text can be cut in several ways, the predicates say which cuts are meant. -/
namespace Lalr.Lexer

def ByteSet.members (s : ByteSet) : Set UInt8 := {b | b ∈ s}

def span (lo hi : UInt8) : Set UInt8 := {b | lo ≤ b ∧ b ≤ hi}

namespace ByteSet

variable {s t : ByteSet} {b : UInt8}

theorem members_injective (h : s.members = t.members) : s = t := ext (Set.ext_iff.1 h)

@[simp] theorem members_empty : members ∅ = ∅ := by simp [members]

@[simp] theorem members_singleton : (singleton b).members = {b} := by ext; simp [members]

@[simp] theorem members_insert : (s.insert b).members = Insert.insert b s.members := by
  ext
  simp [members]

@[simp] theorem members_union : (s ∪ t).members = s.members ∪ t.members := by ext; simp [members]

@[simp] theorem members_complement : s.complement.members = s.membersᶜ := by ext; simp [members]

@[simp] theorem members_range {lo hi : UInt8} : (range lo hi).members = span lo hi := by
  ext
  simp [members, span]

theorem isEmpty_iff : s.isEmpty ↔ s.members = ∅ := by
  rw [← members_empty]
  constructor
  · intro empty
    have := of_decide_eq_true empty
    cases s
    simp_all [EmptyCollection.emptyCollection, ByteSet.empty]
  · intro same
    rw [members_injective same]
    rfl

end ByteSet

namespace Spelling

/-! ## Escapes -/

inductive HexDigit : Char → Nat → Prop where
  | decimal {c : Char} : '0' ≤ c → c ≤ '9' → HexDigit c (c.toNat - '0'.toNat)
  | lower {c : Char} : 'a' ≤ c → c ≤ 'f' → HexDigit c (c.toNat - 'a'.toNat + 10)
  | upper {c : Char} : 'A' ≤ c → c ≤ 'F' → HexDigit c (c.toNat - 'A'.toNat + 10)

/-- The letters that name a byte. -/
def controlByte : Char → Option UInt8
  | 'n' => some 10
  | 'r' => some 13
  | 't' => some 9
  | '0' => some 0
  | _ => none

def wordBytes : Set UInt8 := span 97 122 ∪ span 65 90 ∪ span 48 57 ∪ {95}

def spaces : Set UInt8 := insert 32 (span 9 13)

/-- The letters that name a set. A capital names what the small letter leaves out. -/
def shorthand : Char → Option (Set UInt8)
  | 'd' => some (span 48 57)
  | 'D' => some (span 48 57)ᶜ
  | 'w' => some wordBytes
  | 'W' => some wordBytesᶜ
  | 's' => some spaces
  | 'S' => some spacesᶜ
  | _ => none

/-- What follows a backslash. A letter without a meaning of its own stands for itself. -/
inductive Escape : List Char → Escaped → Prop where
  | control {c : Char} {b : UInt8} : controlByte c = some b → Escape [c] (.byte b)
  | hex {c d : Char} {m n : Nat} : HexDigit c m → HexDigit d n →
      Escape ['x', c, d] (.byte (UInt8.ofNat (16 * m + n)))
  | set {c : Char} {s : ByteSet} : shorthand c = some s.members → Escape [c] (.set s)
  | char {c : Char} : c ≠ 'x' → controlByte c = none → shorthand c = none →
      Escape [c] (.char c)

/-! ## Classes -/

/-- One byte of a class: an ASCII character or an escape that stands for one byte. -/
inductive Bound : List Char → UInt8 → Prop where
  | plain {c : Char} : c ≠ ']' → c ≠ '\\' → c.toNat < 128 → Bound [c] (UInt8.ofNat c.toNat)
  | byte {w : List Char} {b : UInt8} : Escape w (.byte b) → Bound ('\\' :: w) b
  | char {w : List Char} {c : Char} : Escape w (.char c) → c.toNat < 128 →
      Bound ('\\' :: w) (UInt8.ofNat c.toNat)

/-- A minus sign makes a range if something other than the end of the class follows it. -/
def RangeAhead (w : List Char) : Prop := ∃ c rest, w = '-' :: c :: rest ∧ c ≠ ']'

inductive Members : List Char → Set UInt8 → Prop where
  | close : Members [']'] ∅
  | set {w rest : List Char} {s : ByteSet} {S : Set UInt8} :
      Escape w (.set s) → Members rest S → Members ('\\' :: w ++ rest) (s.members ∪ S)
  | single {w rest : List Char} {b : UInt8} {S : Set UInt8} :
      Bound w b → ¬RangeAhead rest → Members rest S → Members (w ++ rest) ({b} ∪ S)
  | range {v w rest : List Char} {lo hi : UInt8} {S : Set UInt8} :
      Bound v lo → Bound w hi → lo ≤ hi → Members rest S →
        Members (v ++ '-' :: w ++ rest) (span lo hi ∪ S)

/-- What follows an opening bracket. A first circumflex always negates. -/
inductive Class : List Char → Set UInt8 → Prop where
  | plain {w : List Char} {S : Set UInt8} : w.head? ≠ some '^' → Members w S → Class w S
  | negated {w : List Char} {S : Set UInt8} : Members w S → Class ('^' :: w) Sᶜ

variable {w rest : List Char} {S : Set UInt8}

theorem RangeAhead.append (h : RangeAhead w) (rest : List Char) : RangeAhead (w ++ rest) := by
  obtain ⟨c, more, rfl, other⟩ := h
  exact ⟨c, more ++ rest, rfl, other⟩

/-- The last character of a class closes it. -/
theorem Members.getLast? (h : Members w S) : w.getLast? = some ']' := by
  induction h with
  | close => rfl
  | set _ _ ih | single _ _ _ ih | range _ _ _ _ ih =>
    simp [List.getLast?_cons, List.getLast?_append, ih]

/-- What follows a class decides nothing in it. -/
theorem Members.rangeAhead (h : Members w S) (ahead : RangeAhead (w ++ rest)) :
    RangeAhead w := by
  obtain ⟨c, more, eq, other⟩ := ahead
  have last := h.getLast?
  match w with
  | [] | [d] => simp_all
  | d :: e :: w =>
    obtain ⟨rfl, rfl, -⟩ : d = '-' ∧ e = c ∧ w ++ rest = more := by simpa using eq
    exact ⟨e, w, rfl, other⟩

/-! ## Patterns -/

def special : List Char := ['(', ')', '[', '.', '\\', '*', '+', '?', '|']

inductive Leaf : List Char → Pattern → Prop where
  | plain {c : Char} : c ∉ special → Leaf [c] (.literal c)
  | dot {s : ByteSet} : s.members = {10}ᶜ → Leaf ['.'] (.bytes s)
  | byte {w : List Char} {b : UInt8} : Escape w (.byte b) → Leaf ('\\' :: w) (.byte b)
  | set {w : List Char} {s : ByteSet} : Escape w (.set s) → Leaf ('\\' :: w) (.bytes s)
  | char {w : List Char} {c : Char} : Escape w (.char c) → Leaf ('\\' :: w) (.literal c)
  | bracket {w : List Char} {s : ByteSet} :
      Class w s.members → s.members.Nonempty → Leaf ('[' :: w) (.bytes s)

mutual

inductive Branches : List Char → List Pattern → Prop where
  | one {w : List Char} {parts : List Pattern} : Parts w parts → Branches w [.concat parts]
  | more {v w : List Char} {branches parts : List Pattern} :
      Branches v branches → Parts w parts →
        Branches (v ++ '|' :: w) (branches ++ [.concat parts])

inductive Parts : List Char → List Pattern → Prop where
  | one {w : List Char} {p : Pattern} : Repeated w p → Parts w [p]
  | more {v w : List Char} {parts : List Pattern} {p : Pattern} :
      Parts v parts → Repeated w p → Parts (v ++ w) (parts ++ [p])

inductive Repeated : List Char → Pattern → Prop where
  | atom {w : List Char} {p : Pattern} : Atom w p → Repeated w p
  | operator {w : List Char} {p : Pattern} (r : Repetition) :
      Repeated w p → Repeated (w ++ [r.operator]) (r.apply p)

inductive Atom : List Char → Pattern → Prop where
  | leaf {w : List Char} {p : Pattern} : Leaf w p → Atom w p
  | group {w : List Char} {branches : List Pattern} :
      Branches w branches → Atom ('(' :: w ++ [')']) (.choice branches)

end

def Spells (w : List Char) (p : Pattern) : Prop := ∃ branches, Branches w branches ∧
  p = .choice branches

end Spelling
end Lalr.Lexer
