import Lalr.Symbol

/-! Sets of terminals as bit masks over their identifiers. -/
namespace Lalr

structure TerminalSet where
  bits : Nat
  /-- Only identifiers of terminals are members. -/
  bounded : ∀ i, bits.testBit i = true → i < UInt16.size
  deriving DecidableEq

namespace TerminalSet

def empty : TerminalSet := ⟨0, by simp⟩

instance : EmptyCollection TerminalSet := ⟨empty⟩

instance : Inhabited TerminalSet := ⟨empty⟩

def contains (s : TerminalSet) (t : TerminalId) : Bool := s.bits.testBit t.raw.toNat

instance : Membership TerminalId TerminalSet := ⟨fun s t => s.contains t = true⟩

instance (s : TerminalSet) (t : TerminalId) : Decidable (t ∈ s) :=
  inferInstanceAs (Decidable (s.contains t = true))

def insert (s : TerminalSet) (t : TerminalId) : TerminalSet where
  bits := s.bits ||| 1 <<< t.raw.toNat
  bounded i h := by
    rw [Nat.testBit_or, Bool.or_eq_true, Nat.one_shiftLeft, Nat.testBit_two_pow] at h
    rcases h with h | h
    · exact s.bounded i h
    · have := t.raw.toNat_lt
      simp only [decide_eq_true_eq] at h
      simp only [UInt16.size]
      omega

def union (s u : TerminalSet) : TerminalSet where
  bits := s.bits ||| u.bits
  bounded i h := by
    rw [Nat.testBit_or, Bool.or_eq_true] at h
    exact h.elim (s.bounded i) (u.bounded i)

instance : Union TerminalSet := ⟨union⟩

def singleton (t : TerminalId) : TerminalSet := empty.insert t

def ofList (ts : List TerminalId) : TerminalSet := ts.foldl insert empty

def isEmpty (s : TerminalSet) : Bool := s.bits == 0

def toList (s : TerminalSet) : List TerminalId :=
  ((List.range (s.bits.log2 + 1)).filter s.bits.testBit).map fun i => ⟨UInt16.ofNat i⟩

def size (s : TerminalSet) : Nat := s.toList.length

theorem mem_def {s : TerminalSet} {t : TerminalId} :
    t ∈ s ↔ s.bits.testBit t.raw.toNat = true := Iff.rfl

theorem toNat_raw_inj {t u : TerminalId} : t.raw.toNat = u.raw.toNat ↔ t = u := by
  cases t; cases u; simp [UInt16.toNat_inj]

@[simp] theorem not_mem_empty (t : TerminalId) : t ∉ (∅ : TerminalSet) := by
  simp [mem_def, EmptyCollection.emptyCollection, empty]

@[simp] theorem mem_insert {s : TerminalSet} {t u : TerminalId} :
    t ∈ s.insert u ↔ t = u ∨ t ∈ s := by
  simp only [mem_def, insert, Nat.testBit_or, Nat.one_shiftLeft, Nat.testBit_two_pow,
    Bool.or_eq_true, decide_eq_true_eq, toNat_raw_inj]
  grind

@[simp] theorem mem_union {s u : TerminalSet} {t : TerminalId} : t ∈ s ∪ u ↔ t ∈ s ∨ t ∈ u := by
  simp only [mem_def, Union.union, union, Nat.testBit_or, Bool.or_eq_true]

@[simp] theorem mem_singleton {t u : TerminalId} : t ∈ singleton u ↔ t = u := by
  simp only [singleton, mem_insert, or_iff_left_iff_imp]
  exact fun h => absurd h (not_mem_empty t)

@[ext] theorem ext {s u : TerminalSet} (h : ∀ t, t ∈ s ↔ t ∈ u) : s = u := by
  cases s with | mk a ha => cases u with | mk b hb =>
  congr
  apply Nat.eq_of_testBit_eq
  intro i
  by_cases small : i < UInt16.size
  · have := h ⟨UInt16.ofNat i⟩
    simp only [mem_def, UInt16.toNat_ofNat_of_lt' small] at this
    exact Bool.eq_iff_iff.2 this
  · have ha' := fun e => small (ha i e)
    have hb' := fun e => small (hb i e)
    rw [Bool.eq_false_iff.2 ha', Bool.eq_false_iff.2 hb']

@[simp] theorem mem_toList {s : TerminalSet} {t : TerminalId} : t ∈ s.toList ↔ t ∈ s := by
  simp only [toList, List.mem_map, List.mem_filter, List.mem_range]
  constructor
  · rintro ⟨i, ⟨-, hi⟩, rfl⟩
    rwa [mem_def, UInt16.toNat_ofNat_of_lt' (s.bounded i hi)]
  · intro h
    refine ⟨t.raw.toNat, ⟨?_, h⟩, by simp⟩
    have nonzero : s.bits ≠ 0 := by
      intro zero
      simp [mem_def, zero] at h
    have := Nat.le_log2 nonzero |>.2 (Nat.ge_two_pow_of_testBit h)
    omega

theorem isEmpty_iff {s : TerminalSet} : s.isEmpty = true ↔ ∀ t, t ∉ s := by
  constructor
  · intro h t
    have zero : s.bits = 0 := by simpa [isEmpty] using h
    simp [mem_def, zero]
  · intro h
    rw [show s = ∅ from ext fun t => by simp [h t]]
    rfl

def room (s : TerminalSet) : Nat :=
  (List.range UInt16.size).countP fun i => !s.bits.testBit i

theorem room_le (s : TerminalSet) : s.room ≤ UInt16.size := by
  simpa [room] using List.countP_le_length (p := fun i => !s.bits.testBit i)
    (l := List.range UInt16.size)

/-- A set that grows has less room. -/
theorem room_union_lt {s u : TerminalSet} (grows : s ∪ u ≠ s) : (s ∪ u).room < s.room := by
  have bits : (s ∪ u).bits = s.bits ||| u.bits := rfl
  have new : ∃ t, t ∈ u ∧ t ∉ s := by
    apply Classical.byContradiction
    intro none
    refine grows (ext fun t => ?_)
    rw [mem_union]
    exact or_iff_left_of_imp fun h => Classical.byContradiction fun h' => none ⟨t, h, h'⟩
  obtain ⟨t, inU, notInS⟩ := new
  have member : t.raw.toNat ∈ List.range UInt16.size := List.mem_range.2 t.raw.toNat_lt
  obtain ⟨front, back, split⟩ := List.append_of_mem member
  have le (l : List Nat) : l.countP (fun i => !(s ∪ u).bits.testBit i) ≤
      l.countP fun i => !s.bits.testBit i := by
    apply List.countP_mono_left
    intro i _ h
    rw [bits, Nat.testBit_or] at h
    grind
  have there : (s ∪ u).bits.testBit t.raw.toNat = true := mem_union.2 (.inr inU)
  have notThere : s.bits.testBit t.raw.toNat = false := Bool.eq_false_iff.2 notInS
  rw [room, room, split]
  simp only [List.countP_append, List.countP_cons, there, notThere]
  have := le front
  have := le back
  simp
  omega

end TerminalSet
end Lalr
