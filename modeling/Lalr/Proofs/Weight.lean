import Lalr.OrderedMap
import Lalr.TerminalSet
import Mathlib.Algebra.GroupWithZero.Nat
import Mathlib.Algebra.Order.BigOperators.Group.List
import Mathlib.Algebra.Order.Group.Nat
import Mathlib.Data.List.Nodup
import Mathlib.Data.List.Perm.Subperm

/-! How many terminals the sets of a map hold together. A loop that puts a value back only when a
set grows does not take more steps than the map weighs in the end. -/
namespace Lalr

namespace TerminalSet

variable {s u : TerminalSet} {t : TerminalId}

theorem toList_nodup (s : TerminalSet) : s.toList.Nodup := by
  refine List.Nodup.map_on (fun i inS j inS' same => ?_) (List.nodup_range.filter _)
  have small := s.bounded i (List.mem_filter.1 inS).2
  have small' := s.bounded j (List.mem_filter.1 inS').2
  have numbers := congrArg (fun t => t.raw.toNat) same
  simpa [UInt16.toNat_ofNat_of_lt' small, UInt16.toNat_ofNat_of_lt' small'] using numbers

theorem size_le_length {ts : List TerminalId} (subset : ∀ t ∈ s, t ∈ ts) :
    s.size ≤ ts.length :=
  (s.toList_nodup.subperm fun t member => subset t (mem_toList.1 member)).length_le

theorem size_mono (subset : ∀ t ∈ s, t ∈ u) : s.size ≤ u.size :=
  size_le_length fun t member => mem_toList.2 (subset t member)

/-- A set that is not all of a larger one has fewer members. -/
theorem size_lt (subset : ∀ t ∈ s, t ∈ u) (other : u ≠ s) : s.size < u.size := by
  obtain ⟨t, inU, notInS⟩ : ∃ t, t ∈ u ∧ t ∉ s := by
    refine Classical.byContradiction fun none => other (ext fun t => ⟨fun inU => ?_, subset t⟩)
    exact Classical.byContradiction fun notInS => none ⟨t, inU, notInS⟩
  have nodup : (t :: s.toList).Nodup :=
    List.nodup_cons.2 ⟨fun member => notInS (mem_toList.1 member), s.toList_nodup⟩
  have members : t :: s.toList ⊆ u.toList :=
    List.cons_subset.2 ⟨mem_toList.2 inU, fun t member =>
      mem_toList.2 (subset t (mem_toList.1 member))⟩
  exact (nodup.subperm members).length_le

end TerminalSet

namespace OrderedMap

variable {κ : Type} [DecidableEq κ] {m m' : OrderedMap κ TerminalSet} {k : κ}

def weight (m : OrderedMap κ TerminalSet) : Nat :=
  (m.keys.map fun k => ((m.get? k).getD ∅).size).sum

theorem weight_le (ts : List TerminalId) (subset : ∀ k, ∀ t ∈ (m.get? k).getD ∅, t ∈ ts) :
    m.weight ≤ m.size * ts.length := by
  have le := List.sum_le_card_nsmul (m.keys.map fun k => ((m.get? k).getD ∅).size) ts.length
    (by simpa using fun k _ => TerminalSet.size_le_length (subset k))
  simpa [weight, length_keys] using le

/-- A new entry only adds to the weight. -/
theorem weight_le_insert {s : TerminalSet} (fresh : k ∉ m.keys) :
    m.weight ≤ (m.insert k s).weight := by
  have old : (m.keys.map fun j => (((m.insert k s).get? j).getD ∅).size) =
      m.keys.map fun j => ((m.get? j).getD ∅).size := by
    refine List.map_congr_left fun j member => ?_
    have other : j ≠ k := fun same => fresh (same ▸ member)
    rw [get?_insert, if_neg other]
  rw [weight, weight, keys_insert, if_neg fresh, List.map_append, List.sum_append, old]
  exact Nat.le_add_right _ _

/-- Where sets only grow and some set does, the map weighs more. -/
theorem weight_lt_of_grows (keys : m'.keys = m.keys)
    (grows : ∀ k, ∀ t ∈ (m.get? k).getD ∅, t ∈ (m'.get? k).getD ∅) (other : m' ≠ m) :
    m.weight < m'.weight := by
  rw [weight, weight, keys]
  refine List.sum_lt_sum _ _ (fun k _ => TerminalSet.size_mono (grows k)) ?_
  obtain ⟨k, change⟩ : ∃ k, m'.get? k ≠ m.get? k := by
    refine Classical.byContradiction fun none => other (eq_of_keys_eq keys fun k => ?_)
    exact Classical.byContradiction fun change => none ⟨k, change⟩
  have member : k ∈ m.keys := by
    refine Classical.byContradiction fun absent => change ?_
    rw [get?_eq_none_iff.2 absent, get?_eq_none_iff.2 (keys ▸ absent)]
  refine ⟨k, member, TerminalSet.size_lt (grows k) fun same => change ?_⟩
  obtain ⟨s, entry⟩ := mem_keys_iff.1 member
  obtain ⟨s', entry'⟩ := mem_keys_iff.1 (keys ▸ member : k ∈ m'.keys)
  rw [entry, entry'] at same ⊢
  exact congrArg some same

/-- The steps that a map pays for: one for each entry and one for each terminal in its set. -/
def credit (m : OrderedMap κ TerminalSet) : Nat := m.size + m.weight

theorem credit_le {ts : List TerminalId} (subset : ∀ k, ∀ t ∈ (m.get? k).getD ∅, t ∈ ts) :
    m.credit ≤ m.size * (1 + ts.length) := by
  rw [credit, Nat.mul_add, Nat.mul_one]
  exact Nat.add_le_add_left (weight_le ts subset) _

theorem credit_lt_insert (s : TerminalSet) (fresh : k ∉ m.keys) :
    m.credit < (m.insert k s).credit := by
  have size : (m.insert k s).size = m.size + 1 := by
    rw [← length_keys, ← length_keys, keys_insert, if_neg fresh, List.length_append,
      List.length_singleton]
  have weight : m.weight ≤ (m.insert k s).weight := weight_le_insert fresh
  rw [credit, credit, size]
  omega

theorem credit_lt_of_grows {own s : TerminalSet} (entry : m.get? k = some own)
    (grows : own ∪ s ≠ own) : m.credit < (m.insert k (own ∪ s)).credit := by
  have keys : (m.insert k (own ∪ s)).keys = m.keys := by
    rw [keys_insert, if_pos (mem_keys_of_get? entry)]
  have weight : m.weight < (m.insert k (own ∪ s)).weight := by
    refine weight_lt_of_grows keys (fun j t member => ?_) fun same => grows ?_
    · rw [get?_insert]
      by_cases here : j = k
      · rw [here, entry, Option.getD_some] at member
        rw [if_pos here, Option.getD_some]
        exact TerminalSet.mem_union.2 (.inl member)
      · rwa [if_neg here]
    · have there := get?_insert m k k (own ∪ s)
      rw [same, entry, if_pos rfl, Option.some.injEq] at there
      exact there.symm
  rw [credit, credit, ← length_keys, ← length_keys, keys]
  omega

end OrderedMap
end Lalr
