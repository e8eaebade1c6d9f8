import Lalr.Proofs.Lexer.Recognition

/-! Where the matches in a text end. An automaton reads bytes: its matches end between characters
exactly if those of the patterns do, as they do where patterns are made of whole characters, and a
set of bytes may split a character. -/
namespace Lalr.Lexer

open Computability

def utf8 (s : String) : List UInt8 := s.toByteArray.data.toList

/-- A character of the text begins after this many bytes, or the text ends there. -/
def IsBoundary (s : String) (offset : Nat) : Prop := String.Pos.Raw.IsValid s ⟨offset⟩

section Utf8

variable {s front back : String} {c : Char} {offset : Nat} {w : List UInt8}

theorem utf8_append (front back : String) : utf8 (front ++ back) = utf8 front ++ utf8 back := by
  simp [utf8]

@[simp] theorem length_utf8 (s : String) : (utf8 s).length = s.utf8ByteSize := by
  rw [utf8, Array.length_toList]
  exact String.size_toByteArray

theorem utf8_singleton (c : Char) : utf8 (.singleton c) = String.utf8EncodeChar c := by
  rw [utf8, String.toByteArray_singleton, List.utf8Encode_singleton, List.data_toByteArray]

theorem drop_utf8_append (front back : String) :
    (utf8 (front ++ back)).drop front.utf8ByteSize = utf8 back := by
  rw [utf8_append, ← length_utf8, List.drop_left]

theorem isBoundary_iff : IsBoundary s offset ↔
    ∃ front back, s = front ++ back ∧ offset = front.utf8ByteSize := by
  rw [IsBoundary, String.Pos.Raw.isValid_iff_exists_append]
  simp [String.Pos.Raw.ext_iff]

theorem IsBoundary.append (h : IsBoundary back offset) (front : String) :
    IsBoundary (front ++ back) (front.utf8ByteSize + offset) := by
  obtain ⟨middle, back, rfl, rfl⟩ := isBoundary_iff.1 h
  refine isBoundary_iff.2 ⟨front ++ middle, back, (String.append_assoc ..).symm, ?_⟩
  rw [String.utf8ByteSize_append]

/-- A text whose bytes come first comes first. -/
theorem isBoundary_of_prefix (first : utf8 front <+: utf8 s) :
    IsBoundary s front.utf8ByteSize := by
  obtain ⟨rest, whole⟩ := first
  have bytes : front.toList.utf8Encode ++ rest.toByteArray = s.toList.utf8Encode := by
    rw [String.utf8Encode_toList, String.utf8Encode_toList]
    refine ByteArray.ext (Array.toList_inj.1 ?_)
    simpa [utf8] using whole
  obtain ⟨back, split⟩ := List.isPrefix_of_utf8Encode_append_eq_utf8Encode _ bytes
  refine isBoundary_iff.2 ⟨front, .ofList back, ?_, rfl⟩
  rw [← String.toList_inj, String.toList_append, String.toList_ofList, split]

end Utf8

namespace Pattern

/-- The pattern is made of whole characters: literals and sets of ASCII bytes. -/
inductive Whole : Pattern → Prop where
  | literal (c : Char) : Whole (.literal c)
  | ascii {set : ByteSet} (small : ∀ b ∈ set, b < 128) : Whole (.bytes set)
  | cat {parts : List Pattern} : (∀ p ∈ parts, Whole p) → Whole (.cat parts)
  | alt {branches : List Pattern} : (∀ p ∈ branches, Whole p) → Whole (.alt branches)
  | star {body : Pattern} : Whole body → Whole (.star body)
  | plus {body : Pattern} : Whole body → Whole (.plus body)
  | opt {body : Pattern} : Whole body → Whole (.opt body)

variable {p : Pattern} {w : List UInt8}

def texts : Language UInt8 := {w | ∃ s, w = utf8 s}

theorem one_le_texts : 1 ≤ texts := by
  rintro w rfl
  exact ⟨"", rfl⟩

theorem mul_texts_le : texts * texts ≤ texts := by
  rintro w ⟨_, ⟨s, rfl⟩, _, ⟨t, rfl⟩, rfl⟩
  exact ⟨s ++ t, (utf8_append s t).symm⟩

theorem sequenceLanguage_le {parts : List Pattern} (whole : ∀ p ∈ parts, p.language ≤ texts) :
    sequenceLanguage parts ≤ texts := by
  induction parts with
  | nil => exact one_le_texts
  | cons p rest ih =>
    obtain ⟨here, others⟩ := List.forall_mem_cons.1 whole
    exact (mul_le_mul' here (ih others)).trans mul_texts_le

theorem choiceLanguage_le {branches : List Pattern} (whole : ∀ p ∈ branches, p.language ≤ texts) :
    choiceLanguage branches ≤ texts := by
  induction branches with
  | nil => exact zero_le
  | cons p rest ih =>
    obtain ⟨here, others⟩ := List.forall_mem_cons.1 whole
    exact add_le here (ih others)

/-- A sequence of bytes matches itself. -/
theorem eq_of_mem_sequenceLanguage {bytes : List UInt8}
    (member : w ∈ sequenceLanguage (bytes.map byte)) : w = bytes := by
  induction bytes generalizing w with
  | nil => exact member
  | cons b rest ih =>
    obtain ⟨_, ⟨a, single, rfl⟩, v, others, rfl⟩ := member
    rw [ih others]
    simpa using single

theorem language_concat (parts : List Pattern) :
    (concat parts).language = sequenceLanguage parts := by
  match parts with
  | [] | _ :: _ :: _ => rfl
  | [p] => rw [concat, sequenceLanguage, sequenceLanguage, mul_one]

theorem kstar_le_texts {l : Language UInt8} (whole : l ≤ texts) : l∗ ≤ texts :=
  kstar_le_of_mul_le_right one_le_texts ((mul_le_mul_left whole texts).trans mul_texts_le)

/-- Such a pattern matches encodings of texts only. -/
theorem Whole.language_le (h : p.Whole) : p.language ≤ texts := by
  induction h with
  | literal c =>
    rw [Pattern.literal, language_concat]
    intro w member
    exact ⟨.singleton c, (eq_of_mem_sequenceLanguage member).trans (utf8_singleton c).symm⟩
  | ascii small =>
    rintro w ⟨b, member, rfl⟩
    have size : (Char.ofUInt8 b).utf8Size = 1 := by
      rw [Char.utf8Size_eq_one_iff, UInt32.le_iff_toNat_le]
      change b.toUInt32.toNat ≤ 127
      rw [UInt8.toNat_toUInt32]
      exact Nat.le_of_lt_succ (UInt8.lt_iff_toNat_lt.1 (small b member))
    refine ⟨.singleton (Char.ofUInt8 b), ?_⟩
    rw [utf8_singleton, String.utf8EncodeChar_eq_singleton size]
    exact congrArg (List.cons · []) (UInt8.toUInt8_toUInt32 b).symm
  | cat _ ih => exact sequenceLanguage_le ih
  | alt _ ih => exact choiceLanguage_le ih
  | star _ ih => exact kstar_le_texts ih
  | plus _ ih => exact (mul_le_mul' ih (kstar_le_texts ih)).trans mul_texts_le
  | opt _ ih => exact add_le one_le_texts ih

end Pattern

/-- Every match of the tokens in a text ends between characters. -/
def EndsOnBoundaries (tokens : List TokenPattern) : Prop :=
  ∀ s t l, LongestWin tokens (utf8 s) t l → IsBoundary s l

namespace Dfa

variable {d : Dfa} {tokens : List TokenPattern} {s : String}

/-- The offsets that are met by matching again and again: a match is passed, and where there is
none, one character is. -/
inductive Reaches (d : Dfa) (s : String) : Nat → Prop where
  | start : Reaches d s 0
  | matched {offset l : Nat} {t : TerminalId} : Reaches d s offset →
      d.longestMatch ((utf8 s).drop offset) = some (t, l) → Reaches d s (offset + l)
  | skipped {front back : String} {c : Char} : s = front ++ (.singleton c ++ back) →
      Reaches d s front.utf8ByteSize → d.longestMatch ((utf8 s).drop front.utf8ByteSize) = none →
      Reaches d s (front.utf8ByteSize + c.utf8Size)

def KeepsBoundaries (d : Dfa) : Prop := ∀ s offset, d.Reaches s offset → IsBoundary s offset

theorem Reaches.scanFrom {offset : Nat} (h : d.Reaches s offset) (fuel n : Nat) :
    d.Reaches s (offset + covered ((scan.scanFrom d fuel ((utf8 s).drop offset)).take n)) := by
  induction fuel generalizing offset n with
  | zero => simpa [Dfa.scan.scanFrom] using h
  | succ fuel ih =>
    rw [Dfa.scan.scanFrom]
    cases found : d.longestMatch ((utf8 s).drop offset) with
    | none => simpa using h
    | some first =>
      obtain ⟨t, l⟩ := first
      cases n with
      | zero => simpa using h
      | succ n =>
        have next := ih (h.matched found) n
        rwa [Nat.add_assoc, ← List.drop_drop] at next

/-- A scan stands at offsets that are met. -/
theorem reaches_scan (d : Dfa) (s : String) (n : Nat) :
    d.Reaches s (covered ((d.scan (utf8 s)).take n)) := by
  have reached := Reaches.start.scanFrom (d := d) (s := s) (utf8 s).length n
  rwa [Nat.zero_add, List.drop_zero] at reached

theorem Reaches.isBoundary {offset : Nat} (recognizes : d.Recognizes tokens)
    (ends : EndsOnBoundaries tokens) (h : d.Reaches s offset) : IsBoundary s offset := by
  induction h with
  | start => exact String.Pos.Raw.isValid_zero
  | matched _ found ih =>
    obtain ⟨front, back, rfl, rfl⟩ := isBoundary_iff.1 ih
    rw [drop_utf8_append, recognizes.some_iff] at found
    exact (ends back _ _ found).append front
  | @skipped front back c split _ _ _ =>
    subst split
    refine IsBoundary.append (isBoundary_iff.2 ⟨.singleton c, back, rfl, ?_⟩) front
    rw [String.utf8ByteSize_singleton]

/-- Only the first match of each text matters. -/
theorem Recognizes.keeps_iff (recognizes : d.Recognizes tokens) :
    d.KeepsBoundaries ↔ EndsOnBoundaries tokens := by
  constructor
  · intro keeps s t l found
    have first : d.longestMatch ((utf8 s).drop 0) = some (t, l) :=
      (recognizes.some_iff _ _ _).2 found
    rw [← Nat.zero_add l]
    exact keeps s _ (.matched .start first)
  · exact fun ends s offset reaches => reaches.isBoundary recognizes ends

end Dfa

/-- Tokens made of whole characters end between characters. -/
theorem endsOnBoundaries_of_whole {tokens : List TokenPattern}
    (whole : ∀ t ∈ tokens, ∀ p, Pattern.parse t.pattern = .ok p → p.Whole) :
    EndsOnBoundaries tokens := by
  intro s t l found
  obtain ⟨k, u, ⟨listed, p, parsed, member⟩, -⟩ := found.wins
  obtain ⟨front, eq⟩ := (whole u (List.mem_of_getElem? listed) p parsed).language_le member
  have length : front.utf8ByteSize = l := by
    rw [← length_utf8, ← eq, List.length_take, Nat.min_eq_left found.le]
  exact length ▸ isBoundary_of_prefix (eq ▸ List.take_prefix l (utf8 s))

/-- The automata of some tokens, minimized or not, stay between characters exactly if the longest
match that the tokens have in a text always ends there, as it does if the patterns are made of whole
characters. -/
theorem tokens_keepBoundaries_iff (tokens : List TokenPattern) :
    ((Nfa.ofTokens tokens).toDfa.KeepsBoundaries ↔ EndsOnBoundaries tokens) ∧
      ((Nfa.ofTokens tokens).toDfa.minimize.KeepsBoundaries ↔ EndsOnBoundaries tokens) ∧
      ((∀ t ∈ tokens, ∀ p, Pattern.parse t.pattern = .ok p → p.Whole) →
        EndsOnBoundaries tokens) := by
  obtain ⟨recognizes, recognizes'⟩ := tokens_recognized tokens
  exact ⟨recognizes.keeps_iff, recognizes'.keeps_iff, endsOnBoundaries_of_whole⟩

def accents : List TokenPattern := [⟨⟨3⟩, "é+", 0⟩]

theorem parse_accents : Pattern.parse "é+" = .ok (.plus (.literal 'é')) := by
  rw [Pattern.parse, if_neg (by decide)]
  change ((lexemes ⟨['é', '+'], 0⟩).foldlM _ _ >>= _) = _
  rw [lexemes_of_next rfl, Cursor.behind, lexemes_of_next rfl, Cursor.behind, lexemes]
  rfl

theorem tokens_keepBoundaries_accents : (Nfa.ofTokens accents).toDfa.KeepsBoundaries ∧
    (Nfa.ofTokens accents).toDfa.minimize.KeepsBoundaries := by
  obtain ⟨raw, minimal, ends⟩ := tokens_keepBoundaries_iff accents
  have whole : ∀ t ∈ accents, ∀ p, Pattern.parse t.pattern = .ok p → p.Whole := by
    intro t member p parsed
    obtain rfl := List.mem_singleton.1 member
    cases parse_accents.symm.trans parsed
    exact .plus (.literal 'é')
  exact ⟨raw.2 (ends whole), minimal.2 (ends whole)⟩

def anyByte : List TokenPattern := [⟨⟨3⟩, ".", 0⟩]

/-- It splits a character of two bytes. -/
theorem anyByte_splits_character :
    (Nfa.ofTokens anyByte).toDfa.Reaches "é" 1 ∧
      (Nfa.ofTokens anyByte).toDfa.minimize.Reaches "é" 1 ∧ ¬ IsBoundary "é" 1 := by
  have first : (Nfa.ofTokens anyByte).toDfa.longestMatch ((utf8 "é").drop 0) = some (⟨3⟩, 1) := by
    decide +kernel
  have first' : (Nfa.ofTokens anyByte).toDfa.minimize.longestMatch ((utf8 "é").drop 0) =
      some (⟨3⟩, 1) := by
    decide +kernel
  refine ⟨.matched .start first, .matched .start first', ?_⟩
  rw [IsBoundary]
  decide +kernel

end Lalr.Lexer
