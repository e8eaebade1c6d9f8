import Lalr.Lexer.Pattern
import Lalr.Lexer.PatternError

/-! The text of a pattern, cut into atoms and operators. -/
namespace Lalr.Lexer

/-- A place in a pattern: the characters ahead and the byte offset of the first of them. -/
structure Cursor where
  ahead : List Char
  offset : Nat := 0
  deriving DecidableEq, Repr

namespace Cursor

def behind (k : Cursor) (c : Char) (rest : List Char) : Cursor := ⟨rest, k.offset + c.utf8Size⟩

end Cursor

inductive Escaped where
  | byte (b : UInt8)
  | set (s : ByteSet)
  | char (c : Char)

def ByteSet.newline : ByteSet := .singleton 10

def ByteSet.digits : ByteSet := .range 48 57

def ByteSet.wordBytes : ByteSet := (.range 97 122 ∪ .range 65 90 ∪ digits).insert 95

def ByteSet.spaces : ByteSet := .ofList [32, 9, 10, 13, 11, 12]

def hexDigit? (c : Char) : Option UInt8 :=
  let n := c.toNat
  if 48 ≤ n && n ≤ 57 then some (UInt8.ofNat (n - 48))
  else if 97 ≤ n && n ≤ 102 then some (UInt8.ofNat (n - 87))
  else if 65 ≤ n && n ≤ 70 then some (UInt8.ofNat (n - 55))
  else none

def hexByte? : List Char → Option (UInt8 × List Char)
  | a :: b :: rest => do return (16 * (← hexDigit? a) + (← hexDigit? b), rest)
  | _ => none

/-- Escapes that stand for something other than the escaped character. -/
def Escaped.ofLetter : Char → Escaped
  | 'n' => .byte 10
  | 'r' => .byte 13
  | 't' => .byte 9
  | '0' => .byte 0
  | 'd' => .set .digits
  | 'D' => .set ByteSet.digits.complement
  | 'w' => .set .wordBytes
  | 'W' => .set ByteSet.wordBytes.complement
  | 's' => .set .spaces
  | 'S' => .set ByteSet.spaces.complement
  | c => .char c

def escape (k : Cursor) : Except PatternError (Escaped × Cursor) :=
  match k.ahead with
  | [] => .error ⟨k.offset, .trailingBackslash⟩
  | 'x' :: rest =>
    match hexByte? rest with
    | some (b, rest') => .ok (.byte b, ⟨rest', k.offset + 3⟩)
    | none => .error ⟨k.offset + 1, .hexDigits⟩
  | c :: rest => .ok (.ofLetter c, k.behind c rest)

inductive ClassMember where
  | byte (b : UInt8)
  | set (s : ByteSet)

/-- Only ASCII characters are members of classes. A fault lies at `k`, behind the character. -/
def ClassMember.ofChar (k : Cursor) (c : Char) : Except PatternError ClassMember :=
  if c.toNat < 128 then .ok (.byte (UInt8.ofNat c.toNat)) else .error ⟨k.offset, .nonAsciiInClass⟩

def classMember (k : Cursor) (c : Char) (rest : List Char) :
    Except PatternError (ClassMember × Cursor) :=
  let k := k.behind c rest
  if c = '\\' then
    match escape k with
    | .error e => .error e
    | .ok (.byte b, k') => .ok (.byte b, k')
    | .ok (.set s, k') => .ok (.set s, k')
    | .ok (.char d, k') => (ClassMember.ofChar k' d).map (·, k')
  else (ClassMember.ofChar k c).map (·, k)

theorem escape_length {k k' : Cursor} {e : Escaped} (h : escape k = .ok (e, k')) :
    k'.ahead.length < k.ahead.length := by
  unfold escape at h
  split at h
  · simp at h
  next rest hk =>
    split at h
    next b rest' hb =>
      simp only [Except.ok.injEq, Prod.mk.injEq] at h
      obtain ⟨-, rfl⟩ := h
      unfold hexByte? at hb
      split at hb
      next x y more =>
        simp only [bind, Option.bind, pure] at hb
        split at hb <;> try simp at hb
        split at hb <;> try simp at hb
        simp [hk, ← hb.2]
        omega
      next => simp at hb
    next => simp at h
  next c rest _ hk =>
    simp only [Except.ok.injEq, Prod.mk.injEq] at h
    obtain ⟨-, rfl⟩ := h
    simp [hk, Cursor.behind]

theorem classMember_length {k k' : Cursor} {c : Char} {rest : List Char} {m : ClassMember}
    (h : classMember k c rest = .ok (m, k')) : k'.ahead.length ≤ rest.length := by
  unfold classMember at h
  dsimp only at h
  split at h
  · split at h
    · simp at h
    next b k'' he => have := escape_length he; simp_all [Cursor.behind]; omega
    next s k'' he => have := escape_length he; simp_all [Cursor.behind]; omega
    next d k'' he =>
      have := escape_length he
      cases hm : ClassMember.ofChar k'' d <;> simp [hm, Except.map] at h
      simp_all [Cursor.behind]
      omega
  · cases hm : ClassMember.ofChar (k.behind c rest) c <;> simp [hm, Except.map] at h
    simp [← h.2, Cursor.behind]

/-- A minus sign makes a range only if something other than `]` follows it. -/
def rangeEnd? : List Char → Option (Char × List Char)
  | '-' :: c :: rest => if c = ']' then none else some (c, rest)
  | _ => none

theorem rangeEnd?_eq {cs rest : List Char} {c : Char} (h : rangeEnd? cs = some (c, rest)) :
    cs = '-' :: c :: rest := by
  unfold rangeEnd? at h
  split at h
  · split at h <;> grind
  · simp at h

/-- The members of a class up to its `]`, added to `set`. The class began at `start`. -/
def classMembers (start : Nat) (set : ByteSet) (k : Cursor) :
    Except PatternError (ByteSet × Cursor) :=
  match _hk : k.ahead with
  | [] => .error ⟨start, .unclosedClass⟩
  | c :: rest =>
    if c = ']' then .ok (set, k.behind c rest)
    else
      match _hm : classMember k c rest with
      | .error e => .error e
      | .ok (.set s, k') => classMembers start (set ∪ s) k'
      | .ok (.byte lo, k') =>
        match _hr : rangeEnd? k'.ahead with
        | none => classMembers start (set.insert lo) k'
        | some (d, more) =>
          match _hn : classMember ⟨d :: more, k'.offset + 1⟩ d more with
          | .error e => .error e
          | .ok (.set _, k'') => .error ⟨k''.offset, .invalidRangeBound⟩
          | .ok (.byte hi, k'') =>
            if hi < lo then .error ⟨k''.offset, .rangeOutOfOrder⟩
            else classMembers start (set ∪ .range lo hi) k''
termination_by k.ahead.length
decreasing_by
  · have := classMember_length _hm
    simp only [_hk, List.length_cons]; omega
  · have := classMember_length _hm
    simp only [_hk, List.length_cons]; omega
  · have := classMember_length _hm
    have := classMember_length _hn
    have := congrArg List.length (rangeEnd?_eq _hr)
    simp only [_hk, List.length_cons] at *; omega

theorem classMembers_length {start : Nat} {set set' : ByteSet} {k k' : Cursor}
    (h : classMembers start set k = .ok (set', k')) : k'.ahead.length < k.ahead.length := by
  fun_induction classMembers start set k with
  | case1 => simp at h
  | case2 k c rest hk =>
    simp only [Except.ok.injEq, Prod.mk.injEq] at h
    simp [hk, ← h.2, Cursor.behind]
  | case3 => simp at h
  | case4 set k c rest hk _ s k1 hm ih =>
    have := classMember_length hm
    have := ih h
    simp [hk]; omega
  | case5 set k c rest hk _ lo k1 hm hr ih =>
    have := classMember_length hm
    have := ih h
    simp [hk]; omega
  | case6 => simp at h
  | case7 => simp at h
  | case8 => simp at h
  | case9 set k c rest hk _ lo k1 hm d more hr hi k2 hn _ ih =>
    have := classMember_length hm
    have := classMember_length hn
    have := congrArg List.length (rangeEnd?_eq hr)
    have := ih h
    simp only [hk, List.length_cons] at *; omega

def closedClass (start : Nat) (set : ByteSet) (k : Cursor) :
    Except PatternError (ByteSet × Cursor) :=
  if set.isEmpty then .error ⟨start, .emptyClass⟩ else .ok (set, k)

def bracketClass (start : Nat) (k : Cursor) : Except PatternError (ByteSet × Cursor) :=
  match k.ahead with
  | '^' :: rest =>
    match classMembers start ∅ (k.behind '^' rest) with
    | .error e => .error e
    | .ok (set, k') => closedClass start set.complement k'
  | _ =>
    match classMembers start ∅ k with
    | .error e => .error e
    | .ok (set, k') => closedClass start set k'

theorem closedClass_eq {start : Nat} {set set' : ByteSet} {k k' : Cursor}
    (h : closedClass start set k = .ok (set', k')) : k' = k := by
  unfold closedClass at h
  split at h <;> simp_all

theorem bracketClass_length {start : Nat} {k k' : Cursor} {set : ByteSet}
    (h : bracketClass start k = .ok (set, k')) : k'.ahead.length < k.ahead.length := by
  unfold bracketClass at h
  split at h
  next rest hk =>
    split at h
    · simp at h
    next set' k1 hm =>
      have := classMembers_length hm
      rw [closedClass_eq h, hk]
      simp only [Cursor.behind, List.length_cons] at *
      omega
  next =>
    split at h
    · simp at h
    next set' k1 hm => rw [closedClass_eq h]; exact classMembers_length hm

inductive Repetition where
  | star
  | plus
  | opt
  deriving DecidableEq, Repr

def Repetition.operator : Repetition → Char
  | star => '*'
  | plus => '+'
  | opt => '?'

def Repetition.apply : Repetition → Pattern → Pattern
  | star => .star
  | plus => .plus
  | opt => .opt

/-- An atom or an operator, with the offset where it begins. A fault ends the pattern. -/
inductive Lexeme where
  | atom (p : Pattern)
  | openGroup (offset : Nat)
  | closeGroup (offset : Nat)
  | bar (offset : Nat)
  | repetition (r : Repetition) (offset : Nat)
  | fault (e : PatternError)

def Lexeme.next (k : Cursor) (c : Char) (rest : List Char) : Except PatternError (Lexeme × Cursor) :=
  let behind := k.behind c rest
  match c with
  | '(' => .ok (.openGroup k.offset, behind)
  | ')' => .ok (.closeGroup k.offset, behind)
  | '|' => .ok (.bar k.offset, behind)
  | '*' => .ok (.repetition .star k.offset, behind)
  | '+' => .ok (.repetition .plus k.offset, behind)
  | '?' => .ok (.repetition .opt k.offset, behind)
  | '.' => .ok (.atom (.bytes ByteSet.newline.complement), behind)
  | '[' => (bracketClass k.offset behind).map fun (set, k') => (.atom (.bytes set), k')
  | '\\' => (escape behind).map fun (e, k') =>
    match e with
    | .byte b => (.atom (.byte b), k')
    | .set s => (.atom (.bytes s), k')
    | .char d => (.atom (.literal d), k')
  | c => .ok (.atom (.literal c), behind)

theorem Lexeme.next_length {k k' : Cursor} {c : Char} {rest : List Char} {l : Lexeme}
    (h : Lexeme.next k c rest = .ok (l, k')) : k'.ahead.length ≤ rest.length := by
  unfold Lexeme.next at h
  dsimp only at h
  split at h
  case h_8 =>
    cases hb : bracketClass k.offset (k.behind '[' rest) with
    | error e => simp [hb, Except.map] at h
    | ok p =>
      obtain ⟨set, k''⟩ := p
      have := bracketClass_length hb
      simp only [hb, Except.map, Except.ok.injEq, Prod.mk.injEq] at h
      simp only [Cursor.behind] at this
      rw [← h.2]; omega
  case h_9 =>
    cases he : escape (k.behind '\\' rest) with
    | error e => simp [he, Except.map] at h
    | ok p =>
      obtain ⟨e, k''⟩ := p
      have := escape_length he
      simp only [Cursor.behind] at this
      simp only [he, Except.map, Except.ok.injEq] at h
      split at h <;> simp only [Prod.mk.injEq] at h <;> rw [← h.2] <;> omega
  all_goals
    simp only [Except.ok.injEq, Prod.mk.injEq] at h
    simp [← h.2, Cursor.behind]

def lexemes (k : Cursor) : List Lexeme :=
  match _hk : k.ahead with
  | [] => []
  | c :: rest =>
    match _hl : Lexeme.next k c rest with
    | .error e => [.fault e]
    | .ok (l, k') => l :: lexemes k'
termination_by k.ahead.length
decreasing_by
  have := Lexeme.next_length _hl
  simp only [_hk, List.length_cons]; omega

theorem lexemes_of_next {c : Char} {rest : List Char} {offset : Nat} {l : Lexeme} {k : Cursor}
    (read : Lexeme.next ⟨c :: rest, offset⟩ c rest = .ok (l, k)) :
    lexemes ⟨c :: rest, offset⟩ = l :: lexemes k := by
  rw [lexemes]
  dsimp only
  split
  · next failed => cases read.symm.trans failed
  · next found =>
    cases read.symm.trans found
    rfl

end Lalr.Lexer
