/-! Finite sets as ascending lists without repetition. -/
namespace Lalr

/-- Insert into an ascending list; a value that is there already is not repeated. -/
def insertSorted [Ord α] (a : α) : List α → List α
  | [] => [a]
  | b :: rest =>
    match compare a b with
    | .lt => a :: b :: rest
    | .eq => b :: rest
    | .gt => b :: insertSorted a rest

def sortedSet [Ord α] (values : List α) : List α := values.foldr insertSorted []

variable [Ord α] [Std.LawfulEqOrd α]

theorem mem_insertSorted {a b : α} {values : List α} :
    b ∈ insertSorted a values ↔ b = a ∨ b ∈ values := by
  induction values with
  | nil => simp [insertSorted]
  | cons c rest ih =>
    rw [insertSorted]
    cases h : compare a c with
    | lt => simp
    | eq => simp [Std.LawfulEqOrd.eq_of_compare h]
    | gt => simp only [List.mem_cons, ih]; grind

@[simp] theorem mem_sortedSet {b : α} {values : List α} : b ∈ sortedSet values ↔ b ∈ values := by
  induction values with
  | nil => simp [sortedSet]
  | cons a rest ih =>
    change b ∈ insertSorted a (sortedSet rest) ↔ _
    rw [mem_insertSorted, ih, List.mem_cons]

variable [Std.TransOrd α]

theorem pairwise_insertSorted (a : α) {values : List α}
    (sorted : values.Pairwise (compare · · = .lt)) :
    (insertSorted a values).Pairwise (compare · · = .lt) := by
  induction values with
  | nil => simp [insertSorted]
  | cons c rest ih =>
    rw [List.pairwise_cons] at sorted
    rw [insertSorted]
    cases h : compare a c with
    | lt =>
      refine List.pairwise_cons.2 ⟨fun b member => ?_, List.pairwise_cons.2 sorted⟩
      rcases List.mem_cons.1 member with rfl | member
      · exact h
      · exact Std.TransCmp.lt_trans h (sorted.1 b member)
    | eq => exact List.pairwise_cons.2 sorted
    | gt =>
      refine List.pairwise_cons.2 ⟨fun b member => ?_, ih sorted.2⟩
      rcases mem_insertSorted.1 member with rfl | member
      · exact Std.OrientedCmp.lt_of_gt h
      · exact sorted.1 b member

theorem pairwise_sortedSet (values : List α) :
    (sortedSet values).Pairwise (compare · · = .lt) := by
  induction values with
  | nil => simp [sortedSet]
  | cons a rest ih => exact pairwise_insertSorted a ih

/-- Ascending lists with the same members are equal. -/
theorem eq_of_pairwise_lt {l m : List α} (hl : l.Pairwise (compare · · = .lt))
    (hm : m.Pairwise (compare · · = .lt)) (same : ∀ a, a ∈ l ↔ a ∈ m) : l = m := by
  have irrefl (a : α) : compare a a ≠ .lt := by simp [Std.ReflCmp.compare_self]
  have nodup {k : List α} (hk : k.Pairwise (compare · · = .lt)) : k.Nodup :=
    hk.imp fun h => by rintro rfl; exact irrefl _ h
  have perm := (List.perm_ext_iff_of_nodup (nodup hl) (nodup hm)).2 same
  refine perm.eq_of_pairwise (fun a b _ _ hab hba => ?_) hl hm
  exact absurd (Std.TransCmp.lt_trans hab hba) (irrefl a)

end Lalr
