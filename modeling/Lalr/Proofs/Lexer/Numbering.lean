import Lalr.Proofs.Lexer.Classes
import Lalr.OrderedMap
import Mathlib.Data.List.Basic

/-! The numbers of the classes. A class is numbered when its smallest byte comes up, so classes are
in the order of their smallest bytes; and two bytes are in one class exactly if no label of an edge
contains only one of them. -/
namespace Lalr.Lexer.ByteClasses

variable {nfa : Nfa} {classes : ByteClasses} {n : Numbering} {classOf : Array Nat} {k l : Nat}
  {b c : UInt8}

def Opened (classOf : Array Nat) (k : Nat) : Prop :=
  ∃ i : Nat, classOf[i]? = some k ∧ ∀ j < i, ∀ l, classOf[j]? = some l → l < k

theorem Opened.push (h : Opened classOf k) (l : Nat) : Opened (classOf.push l) k := by
  obtain ⟨i, here, lower⟩ := h
  have inside := (Array.getElem?_eq_some_iff.1 here).1
  refine ⟨i, by rwa [Array.getElem?_push, if_neg (Nat.ne_of_lt inside)], fun j before l there => ?_⟩
  rw [Array.getElem?_push, if_neg (by omega)] at there
  exact lower j before l there

theorem opened_push (lower : ∀ l ∈ classOf, l < k) : Opened (classOf.push k) k := by
  refine ⟨classOf.size, Array.getElem?_push_size, fun j before l there => ?_⟩
  rw [Array.getElem?_push, if_neg (Nat.ne_of_lt before)] at there
  exact lower l (Array.mem_of_getElem? there)

/-- Classes have signatures of their own, and are opened in the order of their numbers. -/
structure Numbering.Ordered (n : Numbering) : Prop where
  distinct : n.signatures.toList.Nodup
  below : ∀ k ∈ n.classOf, k < n.signatures.size
  opened : ∀ k < n.signatures.size, Opened n.classOf k
  room : n.signatures.size ≤ n.classOf.size

namespace Numbering.Ordered

theorem add (h : n.Ordered) (s : List Bool) : (n.add s).Ordered := by
  rcases n.add_cases s with ⟨c, known, eq⟩ | ⟨new, eq⟩
  · have small := (Array.getElem?_eq_some_iff.1 known).1
    rw [eq]
    refine ⟨h.distinct, fun k member => ?_, fun k inside => (h.opened k inside).push c, ?_⟩
    · rcases Array.mem_push.1 member with before | rfl
      · exact h.below k before
      · exact small
    · exact Nat.le_trans h.room (by simp)
  · rw [eq]
    constructor
    case distinct =>
      have apart : n.signatures.toList.Disjoint [s] := by simpa using new
      simpa using h.distinct.append (List.nodup_singleton s) apart
    case below =>
      intro k member
      rw [Array.size_push]
      rcases Array.mem_push.1 member with before | rfl
      · exact Nat.lt_succ_of_lt (h.below k before)
      · exact Nat.lt_succ_self _
    case opened =>
      intro k small
      rw [Array.size_push] at small
      rcases Nat.lt_succ_iff_lt_or_eq.1 small with before | rfl
      · exact (h.opened k before).push _
      · exact opened_push h.below
    case room => simpa using h.room

theorem foldl (h : n.Ordered) (edgeLabels : List ByteSet) (bytes : List UInt8) :
    (bytes.foldl (fun n b => n.add (signature edgeLabels b)) n).Ordered := by
  induction bytes generalizing n with
  | nil => exact h
  | cons b rest ih => exact ih (h.add _)

end Numbering.Ordered

theorem ordered_empty : ({} : Numbering).Ordered := by
  constructor <;> simp

theorem ordered_numbering (nfa : Nfa) : (numbering nfa).Ordered :=
  ordered_empty.foldl (labels nfa) allBytes

/-- Bytes of one class are in the same labels, and bytes in the same labels are of one class. -/
theorem get_eq_get_iff : (compute nfa).get b = (compute nfa).get c ↔
    ∀ i, ∀ e ∈ (nfa.state i).edges, b ∈ e.1 ↔ c ∈ e.1 := by
  have same : signature (labels nfa) b = signature (labels nfa) c ↔
      ∀ i, ∀ e ∈ (nfa.state i).edges, b ∈ e.1 ↔ c ∈ e.1 := by
    rw [signature, signature, List.map_inj_left]
    exact (forall_mem_labels (P := fun label => label.contains b = label.contains c)).trans
      (forall₃_congr fun _ _ _ => Bool.eq_iff_iff)
  rw [← same]
  refine ⟨signature_eq_of_get_eq, fun eq => ?_⟩
  have atB := getElem?_signatures nfa b
  have atC := getElem?_signatures nfa c
  rw [← Array.getElem?_toList] at atB atC
  have small := (List.getElem?_eq_some_iff.1 atB).1
  exact (List.getElem?_inj small (ordered_numbering nfa).distinct).1 (atB.trans (eq ▸ atC.symm))

/-- Each class has a byte such that smaller bytes are of lower classes. -/
theorem exists_first (small : k < (compute nfa).size) :
    ∃ b, (compute nfa).get b = k ∧ ∀ a < b, (compute nfa).get a < k := by
  obtain ⟨i, here, lower⟩ := (ordered_numbering nfa).opened k small
  have inside : i < 256 := (numbered_numbering nfa).1 ▸ (Array.getElem?_eq_some_iff.1 here).1
  have index : (UInt8.ofNat i).toNat = i := UInt8.toNat_ofNat_of_lt' inside
  refine ⟨UInt8.ofNat i, ?_, fun a before => ?_⟩
  · have known := getElem?_classOf nfa (UInt8.ofNat i)
    rw [index, here] at known
    exact (Option.some.inj known).symm
  · rw [UInt8.lt_iff_toNat_lt, index] at before
    exact lower _ before _ (getElem?_classOf nfa a)

theorem mem_toList_iff : k ∈ (compute nfa).toList ↔ ∃ b, (compute nfa).get b = k := by
  constructor
  · intro member
    obtain ⟨b, here, -⟩ := exists_first (List.mem_range.1 member)
    exact ⟨b, here⟩
  · rintro ⟨b, rfl⟩
    exact get_mem_toList nfa b

theorem pairwise_allBytes : allBytes.Pairwise (· < ·) := by
  rw [allBytes, List.pairwise_map]
  refine List.pairwise_lt_range.imp_of_mem fun i j less => ?_
  rw [UInt8.lt_iff_toNat_lt, UInt8.toNat_ofNat_of_lt' (List.mem_range.1 i),
    UInt8.toNat_ofNat_of_lt' (List.mem_range.1 j)]
  exact less

/-- The representative of a class is its smallest byte. -/
theorem representative_eq_some_iff : classes.representative k = some b ↔
    classes.get b = k ∧ ∀ c, classes.get c = k → b ≤ c := by
  have smallest (b : UInt8) (found : classes.representative k = some b) :
      classes.get b = k ∧ ∀ c, classes.get c = k → b ≤ c := by
    obtain ⟨here, front, back, split, others⟩ := List.find?_eq_some_iff_append.1 found
    refine ⟨by simpa using here, fun c there => ?_⟩
    have member := ByteSet.mem_allBytes c
    have ordered := pairwise_allBytes
    rw [split, List.pairwise_append, List.pairwise_cons] at ordered
    rw [split, List.mem_append, List.mem_cons] at member
    rcases member with before | rfl | behind
    · simpa [there] using others c before
    · exact UInt8.le_refl c
    · exact UInt8.le_of_lt (ordered.2.1.1 c behind)
  refine ⟨smallest b, fun ⟨here, least⟩ => ?_⟩
  cases found : classes.representative k with
  | none => simpa [here] using List.find?_eq_none.1 found b (ByteSet.mem_allBytes b)
  | some c =>
    obtain ⟨there, below⟩ := smallest c found
    exact congrArg some (UInt8.le_antisymm (below b here) (least c there))

theorem exists_representative_of_lt (small : k < (compute nfa).size) :
    ∃ b, (compute nfa).representative k = some b ∧ (compute nfa).get b = k ∧
      ∀ c, (compute nfa).get c = k → b ≤ c := by
  obtain ⟨b, here, lower⟩ := exists_first small
  have least (c : UInt8) (there : (compute nfa).get c = k) : b ≤ c :=
    UInt8.not_lt.1 fun before => Nat.ne_of_lt (lower c before) there
  exact ⟨b, representative_eq_some_iff.2 ⟨here, least⟩, here, least⟩

theorem lt_of_lt_representative (atK : (compute nfa).representative k = some b)
    (atL : (compute nfa).representative l = some c) (less : k < l) : b < c := by
  obtain ⟨rfl, least⟩ := representative_eq_some_iff.1 atK
  obtain ⟨rfl, -⟩ := representative_eq_some_iff.1 atL
  obtain ⟨a, here, lower⟩ := exists_first (get_lt_size nfa b)
  refine UInt8.not_le.1 fun le => ?_
  rcases UInt8.lt_or_eq_of_le (UInt8.le_trans le (least a here)) with before | rfl
  · exact absurd (lower c before) (by omega)
  · omega

/-- Classes are in the order of their smallest bytes. -/
theorem lt_iff_representative_lt (atK : (compute nfa).representative k = some b)
    (atL : (compute nfa).representative l = some c) : k < l ↔ b < c := by
  refine ⟨lt_of_lt_representative atK atL, fun before => ?_⟩
  rcases Nat.lt_trichotomy k l with less | rfl | more
  · exact less
  · rw [atK, Option.some.injEq] at atL
    exact absurd before (atL ▸ UInt8.lt_irrefl b)
  · exact absurd before (UInt8.lt_asymm (lt_of_lt_representative atL atK more))

theorem size_le (nfa : Nfa) : (compute nfa).size ≤ 256 :=
  (numbered_numbering nfa).1 ▸ (ordered_numbering nfa).room

def positions (edgeLabels : List ByteSet) (byte : UInt8) : List Nat :=
  edgeLabels.findIdxs (·.contains byte)

/-- As `Numbering`, with classes of 16 bits that are looked up by positions of labels. -/
structure Registry where
  classOf : Array UInt16 := #[]
  numbers : OrderedMap (List Nat) UInt16 := ∅

def Registry.add (r : Registry) (positions : List Nat) : Registry :=
  match r.numbers.get? positions with
  | some k => { r with classOf := r.classOf.push k }
  | none =>
    let k := UInt16.ofNat r.numbers.size
    ⟨r.classOf.push k, r.numbers.insert positions k⟩

def Registry.toList (r : Registry) : List UInt16 :=
  (List.range (UInt16.ofNat r.numbers.size).toNat).map UInt16.ofNat

def registry (nfa : Nfa) : Registry :=
  allBytes.foldl (fun r b => r.add (positions (labels nfa) b)) {}

theorem positions_eq_iff {edgeLabels : List ByteSet} :
    positions edgeLabels b = positions edgeLabels c ↔
      signature edgeLabels b = signature edgeLabels c := by
  have positions_eq (b : UInt8) :
      positions edgeLabels b = (signature edgeLabels b).findIdxs id := by
    rw [signature, List.findIdxs_map]
    rfl
  constructor
  · intro same
    refine List.map_inj_left.2 fun label member => ?_
    obtain ⟨i, small, rfl⟩ := List.getElem_of_mem member
    have atB := List.mem_findIdxs_iff_pos_getElem (p := (·.contains b)) small
    have atC := List.mem_findIdxs_iff_pos_getElem (p := (·.contains c)) small
    rw [← positions] at atB atC
    rw [Bool.eq_iff_iff, ← atB, same, atC]
  · intro same
    rw [positions_eq, positions_eq, same]

structure Agree (edgeLabels : List ByteSet) (n : Numbering) (r : Registry) : Prop where
  classOf : r.classOf.map UInt16.toNat = n.classOf
  size : r.numbers.size = n.signatures.size
  numbers : ∀ b k, r.numbers.get? (positions edgeLabels b) = some k ↔
    n.signatures[k.toNat]? = some (signature edgeLabels b)

namespace Agree

variable {edgeLabels : List ByteSet} {r : Registry}

/-- The number of a new class has room in 16 bits. -/
theorem add (h : Agree edgeLabels n r) (room : n.signatures.size < UInt16.size) (b : UInt8) :
    Agree edgeLabels (n.add (signature edgeLabels b)) (r.add (positions edgeLabels b)) := by
  rcases n.add_cases (signature edgeLabels b) with ⟨k, known, eq⟩ | ⟨new, eq⟩
  · have small := (Array.getElem?_eq_some_iff.1 known).1
    have index : (UInt16.ofNat k).toNat = k := UInt16.toNat_ofNat_of_lt' (Nat.lt_trans small room)
    have found : r.numbers.get? (positions edgeLabels b) = some (UInt16.ofNat k) := by
      rwa [h.numbers, index]
    rw [eq, Registry.add, found]
    exact ⟨by simp [h.classOf, index], h.size, h.numbers⟩
  · have absent : r.numbers.get? (positions edgeLabels b) = none :=
      Option.eq_none_iff_forall_ne_some.2 fun k found =>
        new (Array.mem_of_getElem? ((h.numbers b k).1 found))
    have index : (UInt16.ofNat r.numbers.size).toNat = n.signatures.size := by
      rw [h.size, UInt16.toNat_ofNat_of_lt' room]
    rw [eq, Registry.add, absent]
    constructor
    case classOf => simp [h.classOf, index]
    case size =>
      rw [OrderedMap.size_insert_of_not_mem (OrderedMap.get?_eq_none_iff.1 absent), h.size,
        Array.size_push]
    case numbers =>
      intro c k
      have last : UInt16.ofNat r.numbers.size = k ↔ k.toNat = n.signatures.size := by
        rw [← UInt16.toNat_inj, index, eq_comm]
      rw [OrderedMap.get?_insert, Array.getElem?_push, ← if_congr last rfl rfl]
      by_cases same : positions edgeLabels c = positions edgeLabels b
      · rw [if_pos same, positions_eq_iff.1 same]
        split
        · next eq => simp [eq]
        · next ne =>
          exact iff_of_false (mt Option.some.inj ne) fun there => new (Array.mem_of_getElem? there)
      · rw [if_neg same, h.numbers]
        split
        · next eq =>
          rw [← eq, index]
          simp [Ne.symm (mt positions_eq_iff.2 same)]
        · rfl

theorem foldl (h : Agree edgeLabels n r) (ordered : n.Ordered) (bytes : List UInt8)
    (room : n.classOf.size + bytes.length ≤ 256) :
    Agree edgeLabels (bytes.foldl (fun n b => n.add (signature edgeLabels b)) n)
      (bytes.foldl (fun r b => r.add (positions edgeLabels b)) r) := by
  induction bytes generalizing n r with
  | nil => exact h
  | cons b rest ih =>
    have few := ordered.room
    rw [List.length_cons] at room
    refine ih (h.add (by simp only [UInt16.size]; omega) b) (ordered.add _) ?_
    rw [Numbering.size_classOf_add]
    omega

end Agree

theorem agree_empty (edgeLabels : List ByteSet) : Agree edgeLabels {} {} := by
  constructor
  case classOf => simp
  case size => rfl
  case numbers => simp

theorem agree_registry (nfa : Nfa) : Agree (labels nfa) (numbering nfa) (registry nfa) :=
  (agree_empty (labels nfa)).foldl ordered_empty allBytes (by simp [length_allBytes])

/-- Counting in 16 bits reaches every class. -/
theorem map_toNat_toList_registry (nfa : Nfa) :
    (registry nfa).toList.map UInt16.toNat = (compute nfa).toList := by
  have narrow (k : Nat) (small : k ≤ (compute nfa).size) : (UInt16.ofNat k).toNat = k := by
    have := size_le nfa
    exact UInt16.toNat_ofNat_of_lt' (by simp only [UInt16.size]; omega)
  have size : (registry nfa).numbers.size = (compute nfa).size := (agree_registry nfa).size
  rw [Registry.toList, size, narrow _ (Nat.le_refl _), List.map_map, toList]
  have same (k : Nat) (member : k ∈ List.range (compute nfa).size) :
      (UInt16.toNat ∘ UInt16.ofNat) k = id k := narrow k (Nat.le_of_lt (List.mem_range.1 member))
  rw [List.map_congr_left same, List.map_id]

/-- Two bytes are of one class exactly if no label of an edge contains only one of them. The classes
are the numbers below `size`, which is at most 256, and `toList` has them all. The representative of
a class is its smallest byte, and representatives ascend with the classes. With signatures that are
positions of labels, and in 16 bits, the classes are the same. -/
theorem compute_coarsest (nfa : Nfa) :
    let classes := compute nfa
    (∀ b c, classes.get b = classes.get c ↔
      ∀ i, ∀ e ∈ (nfa.state i).edges, b ∈ e.1 ↔ c ∈ e.1) ∧
    (∀ k, k < classes.size ↔ ∃ b, classes.get b = k) ∧
    (∀ k < classes.size, ∃ b, classes.representative k = some b ∧ classes.get b = k ∧
      ∀ c, classes.get c = k → b ≤ c) ∧
    (∀ k l b c, classes.representative k = some b → classes.representative l = some c →
      (k < l ↔ b < c)) ∧
    classes.classOf.size = 256 ∧ classes.size ≤ 256 ∧
    (∀ k, k ∈ classes.toList ↔ ∃ b, classes.get b = k) ∧
    (registry nfa).classOf.map UInt16.toNat = classes.classOf ∧
    (registry nfa).toList.map UInt16.toNat = classes.toList := by
  intro classes
  refine ⟨fun b c => get_eq_get_iff, fun k => ?_, fun k => exists_representative_of_lt,
    fun k l b c => lt_iff_representative_lt, (numbered_numbering nfa).1, size_le nfa,
    fun k => mem_toList_iff, (agree_registry nfa).classOf, map_toNat_toList_registry nfa⟩
  rw [← mem_toList_iff, toList, List.mem_range]

/-- The byte 120 has one label in common with 97 and 113, and another label of its own. A label is
empty, and one is there twice. -/
def overlapping : Nfa where
  states := #[
    { edges := [(.ofList [97, 113, 120], 1), (.singleton 120, 2), (∅, 1)] },
    { edges := [(.ofList [97, 113, 120], 1)], epsilons := [2] },
    { edges := [(.ofList [48, 57], 0)] }]

theorem compute_coarsest_overlapping :
    (compute overlapping).size = 4 ∧
    (∀ i, ∀ e ∈ (overlapping.state i).edges, 97 ∈ e.1 ↔ 113 ∈ e.1) ∧
    (¬∀ i, ∀ e ∈ (overlapping.state i).edges, 97 ∈ e.1 ↔ 120 ∈ e.1) ∧
    ∀ c, (compute overlapping).get c = 3 → 120 ≤ c := by
  have computed : (compute overlapping).size = 4 ∧
      (compute overlapping).representative 3 = some 120 ∧
      (compute overlapping).get 97 = (compute overlapping).get 113 ∧
      (compute overlapping).get 97 ≠ (compute overlapping).get 120 := by decide +kernel
  obtain ⟨size, last, alike, apart⟩ := computed
  obtain ⟨same, -, smallest, -⟩ := compute_coarsest overlapping
  refine ⟨size, (same 97 113).1 alike, mt (same 97 120).2 apart, ?_⟩
  obtain ⟨b, found, -, least⟩ := smallest 3 (by rw [size]; decide)
  exact Option.some.inj (found.symm.trans last) ▸ least

end Lalr.Lexer.ByteClasses
