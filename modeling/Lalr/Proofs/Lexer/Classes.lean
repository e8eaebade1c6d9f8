import Lalr.Lexer.ByteClasses
import Lalr.Proofs.Lexer.Path
import Mathlib.Data.List.Basic

/-! Bytes of one class lead to the same states: they are in the same labels of edges. -/
namespace Lalr.Lexer

open ByteClasses

namespace ByteClasses

variable {edgeLabels : List ByteSet} {bytes : List UInt8} {n : Numbering} {b c : UInt8}
  {nfa : Nfa}

def Numbered (edgeLabels : List ByteSet) (bytes : List UInt8) (n : Numbering) : Prop :=
  ∀ (i : Nat) b, bytes[i]? = some b → ∃ k, n.classOf[i]? = some k ∧
    n.signatures[k]? = some (signature edgeLabels b)

/-- The next byte has the class of its signature, which is that of an earlier byte or is new. -/
theorem Numbering.add_cases (n : Numbering) (s : List Bool) :
    (∃ k, n.signatures[k]? = some s ∧ n.add s = { n with classOf := n.classOf.push k }) ∨
    s ∉ n.signatures ∧
      n.add s = ⟨n.classOf.push n.signatures.size, n.signatures.push s⟩ := by
  unfold Numbering.add
  cases found : n.signatures.findIdx? (· == s) with
  | some k =>
    obtain ⟨small, same, -⟩ := Array.findIdx?_eq_some_iff_getElem.1 found
    exact .inl ⟨k, by rw [Array.getElem?_eq_getElem small, eq_of_beq same], rfl⟩
  | none =>
    refine .inr ⟨fun there => ?_, rfl⟩
    simpa using Array.findIdx?_eq_none_iff.1 found s there

theorem Numbering.size_classOf_add (n : Numbering) (s : List Bool) :
    (n.add s).classOf.size = n.classOf.size + 1 := by
  rcases n.add_cases s with ⟨k, -, eq⟩ | ⟨-, eq⟩ <;> rw [eq, Array.size_push]

theorem numbered_add (size : n.classOf.size = bytes.length) (h : Numbered edgeLabels bytes n) :
    (n.add (signature edgeLabels b)).classOf.size = (bytes ++ [b]).length ∧
      Numbered edgeLabels (bytes ++ [b]) (n.add (signature edgeLabels b)) := by
  have shape : ∃ k signatures, n.add (signature edgeLabels b) = ⟨n.classOf.push k, signatures⟩ ∧
      signatures[k]? = some (signature edgeLabels b) ∧
      ∀ (l : Nat) s, n.signatures[l]? = some s → signatures[l]? = some s := by
    rcases n.add_cases (signature edgeLabels b) with ⟨k, known, eq⟩ | ⟨-, eq⟩
    · exact ⟨k, n.signatures, eq, known, fun _ _ => id⟩
    · refine ⟨_, _, eq, Array.getElem?_push_size, fun l s there => ?_⟩
      have inside := (Array.getElem?_eq_some_iff.1 there).1
      simp only [Array.getElem?_push, if_neg (Nat.ne_of_lt inside), there]
  obtain ⟨k, signatures, eq, new, old⟩ := shape
  rw [eq]
  refine ⟨by simp [size], fun i c there => ?_⟩
  rw [List.getElem?_append] at there
  dsimp only
  rw [Array.getElem?_push, size]
  split at there
  · next small =>
    obtain ⟨l, classOf, known⟩ := h i c there
    exact ⟨l, by rw [if_neg (Nat.ne_of_lt small), classOf], old l _ known⟩
  · next le =>
    obtain ⟨last, rfl⟩ := List.getElem?_eq_some_iff.1 there
    have here : i = bytes.length := by
      rw [List.length_singleton] at last
      omega
    exact ⟨k, if_pos here, by simpa using new⟩

theorem numbered_foldl (bytes seen : List UInt8) (size : n.classOf.size = seen.length)
    (h : Numbered edgeLabels seen n) :
    let last := bytes.foldl (fun n b => n.add (signature edgeLabels b)) n
    last.classOf.size = (seen ++ bytes).length ∧ Numbered edgeLabels (seen ++ bytes) last := by
  induction bytes generalizing seen n with
  | nil => simpa using ⟨size, h⟩
  | cons b rest ih =>
    obtain ⟨size', h'⟩ := numbered_add (b := b) size h
    simpa using ih (seen ++ [b]) size' h'

theorem length_allBytes : allBytes.length = 256 := by
  rw [allBytes, List.length_map, List.length_range]

theorem getElem?_allBytes (b : UInt8) : allBytes[b.toNat]? = some b := by
  rw [allBytes, List.getElem?_map, List.getElem?_range b.toNat_lt, Option.map_some,
    UInt8.ofNat_toNat]

def numbering (nfa : Nfa) : Numbering :=
  allBytes.foldl (fun n b => n.add (signature (labels nfa) b)) {}

theorem compute_eq (nfa : Nfa) :
    compute nfa = ⟨(numbering nfa).classOf, (numbering nfa).signatures.size⟩ := rfl

theorem numbered_numbering (nfa : Nfa) :
    (numbering nfa).classOf.size = 256 ∧ Numbered (labels nfa) allBytes (numbering nfa) := by
  have empty : Numbered (labels nfa) [] {} := fun i b there => by simp at there
  obtain ⟨size, numbered⟩ := numbered_foldl allBytes [] rfl empty
  exact ⟨size.trans length_allBytes, numbered⟩

theorem getElem?_classOf (nfa : Nfa) (b : UInt8) :
    (numbering nfa).classOf[b.toNat]? = some ((compute nfa).get b) := by
  obtain ⟨k, here, -⟩ := (numbered_numbering nfa).2 b.toNat b (getElem?_allBytes b)
  rw [get, compute_eq, here, Option.getD_some]

/-- The class of a byte stands for its signature. -/
theorem getElem?_signatures (nfa : Nfa) (b : UInt8) :
    (numbering nfa).signatures[(compute nfa).get b]? = some (signature (labels nfa) b) := by
  obtain ⟨k, here, known⟩ := (numbered_numbering nfa).2 b.toNat b (getElem?_allBytes b)
  rwa [Option.some.inj ((getElem?_classOf nfa b).symm.trans here)]

theorem get_lt_size (nfa : Nfa) (b : UInt8) : (compute nfa).get b < (compute nfa).size :=
  (Array.getElem?_eq_some_iff.1 (getElem?_signatures nfa b)).1

theorem get_mem_toList (nfa : Nfa) (b : UInt8) :
    (compute nfa).get b ∈ (compute nfa).toList :=
  List.mem_range.2 (get_lt_size nfa b)

theorem signature_eq_of_get_eq (same : (compute nfa).get b = (compute nfa).get c) :
    signature (labels nfa) b = signature (labels nfa) c := by
  have known := getElem?_signatures nfa b
  rw [same, getElem?_signatures] at known
  exact (Option.some.inj known).symm

theorem forall_mem_labels {P : ByteSet → Prop} :
    (∀ label ∈ labels nfa, P label) ↔ ∀ i, ∀ e ∈ (nfa.state i).edges, P e.1 := by
  rw [Nfa.forall_state_iff (P := fun s => ∀ e ∈ s.edges, P e.1) (by simp)]
  simp only [labels, List.forall_mem_flatMap, List.forall_mem_map]

/-- Every class of a byte has a representative, which is in the same labels. -/
theorem exists_representative (nfa : Nfa) (b : UInt8) :
    ∃ c, (compute nfa).representative ((compute nfa).get b) = some c ∧
      ∀ states, nfa.move states c = nfa.move states b := by
  cases found : (compute nfa).representative ((compute nfa).get b) with
  | none =>
    have none := List.find?_eq_none.1 found b (ByteSet.mem_allBytes b)
    simp at none
  | some c =>
    refine ⟨c, rfl, fun states => ?_⟩
    have same : (compute nfa).get c = (compute nfa).get b := by
      simpa using List.find?_some found
    have contains (i : Nat) (e : ByteSet × Nat) (edge : e ∈ (nfa.state i).edges) :
        e.1.contains c = e.1.contains b :=
      forall_mem_labels.1 (List.map_inj_left.1 (signature_eq_of_get_eq same)) i e edge
    unfold Nfa.move
    congr 1
    apply List.flatMap_congr
    intro i _
    rw [List.filter_congr (contains i)]

end ByteClasses
end Lalr.Lexer
