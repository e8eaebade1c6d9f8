/-! Sets of bytes, the labels of the edges of a byte automaton, as 256-bit masks. -/
namespace Lalr.Lexer

structure ByteSet where
  bits : BitVec 256
  deriving DecidableEq, Inhabited

def allBytes : List UInt8 := (List.range 256).map UInt8.ofNat

namespace ByteSet

def empty : ByteSet := ⟨0⟩

instance : EmptyCollection ByteSet := ⟨empty⟩

def contains (s : ByteSet) (b : UInt8) : Bool := s.bits.getLsbD b.toNat

instance : Membership UInt8 ByteSet := ⟨fun s b => s.contains b = true⟩

instance (s : ByteSet) (b : UInt8) : Decidable (b ∈ s) :=
  inferInstanceAs (Decidable (s.contains b = true))

def insert (s : ByteSet) (b : UInt8) : ByteSet := ⟨s.bits ||| BitVec.twoPow 256 b.toNat⟩

def union (s t : ByteSet) : ByteSet := ⟨s.bits ||| t.bits⟩

instance : Union ByteSet := ⟨union⟩

def complement (s : ByteSet) : ByteSet := ⟨~~~s.bits⟩

def ofList (bytes : List UInt8) : ByteSet := bytes.foldl insert empty

def singleton (b : UInt8) : ByteSet := empty.insert b

/-- The bytes from `lo` to `hi`, none if `hi` is below `lo`. -/
def range (lo hi : UInt8) : ByteSet :=
  ofList (allBytes.filter fun b => decide (lo ≤ b) && decide (b ≤ hi))

def isEmpty (s : ByteSet) : Bool := s.bits == 0

def toList (s : ByteSet) : List UInt8 := allBytes.filter s.contains

def size (s : ByteSet) : Nat := s.toList.length

/-- The maximal runs of consecutive bytes in an ascending list, as first and last byte. -/
def runs : List UInt8 → List (UInt8 × UInt8)
  | [] => []
  | b :: rest =>
    match runs rest with
    | [] => [(b, b)]
    | (lo, hi) :: more =>
      if lo.toNat = b.toNat + 1 then (b, hi) :: more else (b, b) :: (lo, hi) :: more

theorem mem_def {s : ByteSet} {b : UInt8} : b ∈ s ↔ s.bits.getLsbD b.toNat = true := Iff.rfl

@[simp] theorem not_mem_empty (b : UInt8) : b ∉ (∅ : ByteSet) := by
  simp [mem_def, EmptyCollection.emptyCollection, empty]

@[simp] theorem mem_insert {s : ByteSet} {a b : UInt8} : a ∈ s.insert b ↔ a = b ∨ a ∈ s := by
  have ha := a.toNat_lt
  have hb := b.toNat_lt
  simp only [mem_def, insert, BitVec.getLsbD_or, BitVec.getLsbD_twoPow, Bool.or_eq_true,
    Bool.and_eq_true, decide_eq_true_eq, ← UInt8.toNat_inj]
  grind

@[simp] theorem mem_union {s t : ByteSet} {b : UInt8} : b ∈ s ∪ t ↔ b ∈ s ∨ b ∈ t := by
  simp only [mem_def, Union.union, union, BitVec.getLsbD_or, Bool.or_eq_true]

@[simp] theorem mem_complement {s : ByteSet} {b : UInt8} : b ∈ s.complement ↔ b ∉ s := by
  have hb := b.toNat_lt
  simp only [mem_def, complement, BitVec.getLsbD_not, Bool.and_eq_true, decide_eq_true_eq]
  grind

theorem mem_allBytes (b : UInt8) : b ∈ allBytes := by
  rw [allBytes, List.mem_map]
  exact ⟨b.toNat, List.mem_range.2 b.toNat_lt, UInt8.ofNat_toNat⟩

@[simp] theorem mem_toList {s : ByteSet} {b : UInt8} : b ∈ s.toList ↔ b ∈ s := by
  rw [toList, List.mem_filter]
  exact and_iff_right (mem_allBytes b)

theorem mem_foldl_insert (bytes : List UInt8) (s : ByteSet) (b : UInt8) :
    b ∈ bytes.foldl insert s ↔ b ∈ bytes ∨ b ∈ s := by
  induction bytes generalizing s with
  | nil => simp
  | cons c rest ih => simp only [List.foldl_cons, ih, mem_insert, List.mem_cons]; grind

@[simp] theorem mem_ofList {bytes : List UInt8} {b : UInt8} : b ∈ ofList bytes ↔ b ∈ bytes := by
  rw [ofList, mem_foldl_insert]
  exact or_iff_left (not_mem_empty b)

@[simp] theorem mem_singleton {a b : UInt8} : a ∈ singleton b ↔ a = b := by
  rw [singleton, mem_insert]
  exact or_iff_left (not_mem_empty a)

@[simp] theorem mem_range {lo hi b : UInt8} : b ∈ range lo hi ↔ lo ≤ b ∧ b ≤ hi := by
  simp [range, mem_allBytes]

@[ext] theorem ext {s t : ByteSet} (h : ∀ b, b ∈ s ↔ b ∈ t) : s = t := by
  cases s with | mk x => cases t with | mk y =>
  congr
  apply BitVec.eq_of_getLsbD_eq
  intro i hi
  have := h (UInt8.ofNat i)
  simp only [mem_def, UInt8.toNat_ofNat_of_lt' hi] at this
  exact Bool.eq_iff_iff.2 this

end ByteSet
end Lalr.Lexer
