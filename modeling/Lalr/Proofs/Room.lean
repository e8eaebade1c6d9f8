import Lalr.OrderedMap
import Lalr.TerminalSet
import Mathlib.Algebra.GroupWithZero.Nat

/-! How much maps of terminal sets can still grow. Fixpoint loops that only add lookaheads end
because each growth leaves less room. -/
namespace Lalr

/-- A missing entry counts as one place more than an empty set. -/
def entryRoom : Option TerminalSet → Nat
  | none => UInt16.size + 1
  | some s => s.room

theorem entryRoom_le (e : Option TerminalSet) : entryRoom e ≤ UInt16.size + 1 := by
  cases e with
  | none => exact Nat.le_refl _
  | some s => exact Nat.le_succ_of_le s.room_le

variable {κ : Type} [DecidableEq κ] {m m' : OrderedMap κ TerminalSet} {k : κ} {keys : List κ}

def roomAt (m : OrderedMap κ TerminalSet) (keys : List κ) : Nat :=
  (keys.map fun k => entryRoom (m.get? k)).sum

theorem roomAt_le (m : OrderedMap κ TerminalSet) (keys : List κ) :
    roomAt m keys ≤ keys.length * (UInt16.size + 1) := by
  induction keys with
  | nil => exact Nat.zero_le _
  | cons k rest ih =>
    have first := entryRoom_le (m.get? k)
    rw [List.length_cons, Nat.add_mul]
    simp only [roomAt, List.map_cons, List.sum_cons] at ih ⊢
    omega

/-- Where all keys have entries the room is smaller. -/
theorem roomAt_le_of_present (present : ∀ k ∈ keys, k ∈ m.keys) :
    roomAt m keys ≤ keys.length * UInt16.size := by
  induction keys with
  | nil => exact Nat.zero_le _
  | cons k rest ih =>
    obtain ⟨here, others⟩ := List.forall_mem_cons.1 present
    obtain ⟨s, entry⟩ := OrderedMap.mem_keys_iff.1 here
    have first := s.room_le
    have := ih others
    rw [List.length_cons, Nat.add_mul]
    simp only [roomAt, List.map_cons, List.sum_cons, entry, entryRoom] at this ⊢
    omega

theorem roomAt_mono (le : ∀ k ∈ keys, entryRoom (m'.get? k) ≤ entryRoom (m.get? k)) :
    roomAt m' keys ≤ roomAt m keys := by
  induction keys with
  | nil => exact Nat.le_refl _
  | cons k rest ih =>
    obtain ⟨here, others⟩ := List.forall_mem_cons.1 le
    exact Nat.add_le_add here (ih others)

theorem roomAt_lt (le : ∀ k ∈ keys, entryRoom (m'.get? k) ≤ entryRoom (m.get? k))
    (member : k ∈ keys) (lt : entryRoom (m'.get? k) < entryRoom (m.get? k)) :
    roomAt m' keys < roomAt m keys := by
  induction keys with
  | nil => cases member
  | cons j rest ih =>
    obtain ⟨here, others⟩ := List.forall_mem_cons.1 le
    rcases List.mem_cons.1 member with rfl | inRest
    · exact Nat.add_lt_add_of_lt_of_le lt (roomAt_mono others)
    · exact Nat.add_lt_add_of_le_of_lt here (ih others inRest)

/-- An entry with less room leaves less room in the map. -/
theorem roomAt_insert_lt {s : TerminalSet} (member : k ∈ keys)
    (less : s.room < entryRoom (m.get? k)) : roomAt (m.insert k s) keys < roomAt m keys := by
  have at_k : entryRoom ((m.insert k s).get? k) = s.room := by
    rw [OrderedMap.get?_insert, if_pos rfl]
    rfl
  refine roomAt_lt (fun j _ => ?_) member (at_k ▸ less)
  by_cases same : j = k
  · subst same
    rw [at_k]
    exact Nat.le_of_lt less
  · apply Nat.le_of_eq
    simp only [OrderedMap.get?_insert, if_neg same]

/-- Maps with the same keys have less room where sets have grown. -/
theorem roomAt_lt_of_grows (keys : m'.keys = m.keys)
    (grows : ∀ k, ∀ t ∈ (m.get? k).getD ∅, t ∈ (m'.get? k).getD ∅) (other : m' ≠ m) :
    roomAt m' m'.keys < roomAt m m.keys := by
  have entry (k : κ) (member : k ∈ m.keys) : entryRoom (m'.get? k) < entryRoom (m.get? k) ∨
      m'.get? k = m.get? k := by
    obtain ⟨s, old⟩ := OrderedMap.mem_keys_iff.1 member
    obtain ⟨u, new⟩ := OrderedMap.mem_keys_iff.1 (keys ▸ member)
    have le := grows k
    rw [old, new] at le ⊢
    have union : s ∪ u = u := by
      ext t
      rw [TerminalSet.mem_union]
      exact or_iff_right_of_imp (le t)
    by_cases same : u = s
    · exact .inr (congrArg some same)
    · refine .inl (Nat.lt_of_le_of_lt (Nat.le_of_eq ?_) (TerminalSet.room_union_lt (u := u) ?_))
      · simp only [union, entryRoom]
      · rwa [union]
  have different : ∃ k ∈ m.keys, m'.get? k ≠ m.get? k := by
    refine Classical.byContradiction fun none => other (OrderedMap.eq_of_keys_eq keys fun k => ?_)
    by_cases member : k ∈ m.keys
    · exact Classical.byContradiction fun change => none ⟨k, member, change⟩
    · simp only [OrderedMap.get?_eq_none_iff.2 member, OrderedMap.get?_eq_none_iff.2 (keys ▸ member)]
  obtain ⟨k, member, change⟩ := different
  rw [keys]
  refine roomAt_lt (fun j inKeys => ?_) member ((entry k member).resolve_right change)
  rcases entry j inKeys with less | same
  · exact Nat.le_of_lt less
  · exact Nat.le_of_eq (congrArg entryRoom same)

/-- Replacing one value of a list changes the sum by the difference. -/
theorem sum_map_set {f : α → Nat} {l : List α} {i : Nat} {a b : α} (entry : l[i]? = some a) :
    ((l.set i b).map f).sum + f a = (l.map f).sum + f b := by
  induction l generalizing i with
  | nil => cases entry
  | cons c rest ih =>
    cases i with
    | zero =>
      cases entry
      simp only [List.set_cons_zero, List.map_cons, List.sum_cons]
      omega
    | succ i =>
      have later := ih entry
      simp only [List.set_cons_succ, List.map_cons, List.sum_cons]
      omega

end Lalr
