import Lalr.Lexer.Minimal
import Mathlib.Data.List.Perm.Subperm

/-! Partition refinement. Every pair of a block and a class is a pending splitter, or the states
of a block agree on whether they enter that block; when no splitter is left, they all agree. -/
namespace Lalr.Lexer.Minimal

variable {blockOf : Array Nat} {members : List Nat} {i : Nat}

@[simp] theorem size_assign (blockOf : Array Nat) (members : List Nat) (B : Nat) :
    (assign blockOf members B).size = blockOf.size := by
  induction members generalizing blockOf with
  | nil => rfl
  | cons s rest ih => exact (ih _).trans Array.size_setIfInBounds

theorem getElem?_assign (blockOf : Array Nat) (members : List Nat) (B i : Nat) :
    (assign blockOf members B)[i]? =
      if i ∈ members then blockOf[i]?.map fun _ => B else blockOf[i]? := by
  induction members generalizing blockOf with
  | nil => simp [assign]
  | cons s rest ih =>
    have first : (blockOf.setIfInBounds s B)[i]? =
        if i = s then blockOf[i]?.map fun _ => B else blockOf[i]? := by
      by_cases same : i = s
      · subst same
        by_cases small : i < blockOf.size <;> simp [small]
      · simp only [if_neg same, Array.getElem?_setIfInBounds_ne (Ne.symm same)]
    change (assign (blockOf.setIfInBounds s B) rest B)[i]? = _
    rw [ih, first]
    by_cases same : i = s <;> by_cases later : i ∈ rest <;> simp [same, later, Function.comp_def]

section Inverse

variable {d : Dfa} {inv : Array (OrderedMap Nat (List Nat))} {j k : Nat}

def sources (inv : Array (OrderedMap Nat (List Nat))) (j k : Nat) : List Nat :=
  ((inv[j]?.getD ∅).get? k).getD []

theorem mem_sources_modify {j' k' i' : Nat} :
    i ∈ sources (inv.modify j' fun m => m.insert k' ((m.get? k').getD [] ++ [i'])) j k ↔
      i ∈ sources inv j k ∨ j < inv.size ∧ (i, k, j) = (i', k', j') := by
  rw [sources, Array.getElem?_modify]
  by_cases sameState : j' = j
  · subst sameState
    rw [if_pos rfl]
    by_cases small : j' < inv.size
    · rw [Array.getElem?_eq_getElem small, Option.map_some, Option.getD_some,
        OrderedMap.get?_insert, sources, Array.getElem?_eq_getElem small, Option.getD_some]
      by_cases sameClass : k = k'
      · subst sameClass
        simp [small]
      · simp [sameClass]
    · rw [Array.getElem?_eq_none (Nat.le_of_not_lt small), Option.map_none, sources,
        Array.getElem?_eq_none (Nat.le_of_not_lt small)]
      simp [small]
  · rw [if_neg sameState]
    simp [sources, Ne.symm sameState]

theorem mem_sources_foldl {edges : List (Nat × Nat × Nat)} :
    i ∈ sources (edges.foldl (fun inv (i, k, j) =>
      inv.modify j fun m => m.insert k ((m.get? k).getD [] ++ [i])) inv) j k ↔
      i ∈ sources inv j k ∨ j < inv.size ∧ (i, k, j) ∈ edges := by
  induction edges generalizing inv with
  | nil => simp
  | cons e rest ih =>
    rw [List.foldl_cons, ih, mem_sources_modify, Array.size_modify, List.mem_cons, or_assoc,
      and_or_left]

/-- Transitions of states are found backwards. -/
theorem mem_sources_inverse : i ∈ sources (inverse d) j k ↔
    j < d.states.size ∧ (d.state i).transitions.get? k = some j := by
  have start : i ∉ sources (Array.replicate d.states.size ∅) j k := by
    rw [sources, Array.getElem?_replicate]
    split <;> simp
  rw [inverse, mem_sources_foldl, Array.size_replicate, or_iff_right start]
  apply and_congr_right'
  simp only [List.mem_flatMap, Prod.exists, List.mem_zipIdx_iff_getElem?, List.mem_map,
    Prod.mk.injEq, OrderedMap.mem_toList_iff, Array.getElem?_toList]
  constructor
  · rintro ⟨s, _, there, _, _, entry, rfl, rfl, rfl⟩
    rw [Dfa.state, there]
    exact entry
  · intro entry
    cases there : d.states[i]? with
    | none =>
      rw [Dfa.state, there] at entry
      cases entry
    | some s =>
      rw [Dfa.state, there] at entry
      exact ⟨s, i, there, k, j, entry, rfl, rfl, rfl⟩

end Inverse

namespace Refinement

variable {d : Dfa} {r r' : Refinement} {b B C k j marked : Nat} {s : Splitter}
  {touched : List Nat}

/-- Blocks are disjoint and hold all states, and a block has states of one token only. -/
structure Partition (d : Dfa) (r : Refinement) : Prop where
  size : r.blockOf.size = d.states.size
  member : ∀ (B : Nat) members, r.blocks[B]? = some members →
    ∀ i : Nat, i ∈ members ↔ r.blockOf[i]? = some B
  inhabited : ∀ B < r.blocks.size, ∃ i : Nat, r.blockOf[i]? = some B
  lt : ∀ (i : Nat) B, r.blockOf[i]? = some B → B < r.blocks.size
  accept : ∀ (B i j : Nat), r.blockOf[i]? = some B → r.blockOf[j]? = some B →
    (d.state i).accept = (d.state j).accept

/-- The blocks are at most as many as the states. -/
theorem Partition.size_le (h : Partition d r) : r.blocks.size ≤ d.states.size := by
  have subset : List.range r.blocks.size ⊆ r.blockOf.toList := by
    intro B member
    obtain ⟨i, there⟩ := h.inhabited B (List.mem_range.1 member)
    exact Array.mem_toList_iff.2 (Array.mem_of_getElem? there)
  have := (List.nodup_range.subperm subset).length_le
  rwa [List.length_range, Array.length_toList, h.size] at this

/-- The block of a state that exists. -/
theorem Partition.exists_block (h : Partition d r) (small : i < d.states.size) :
    ∃ B members, r.blockOf[i]? = some B ∧ r.blocks[B]? = some members := by
  rw [← h.size] at small
  have here := Array.getElem?_eq_getElem small
  exact ⟨_, _, here, Array.getElem?_eq_getElem (h.lt i _ here)⟩

/-- A block is split if some of its states are not marked. -/
theorem splitBlock_cases (classes : ByteClasses) (marked : Nat)
    (there : r.blocks[b]? = some members) :
    (∀ i ∈ members, marked.testBit i = true) ∧ splitBlock classes marked r b = r ∨
      (∃ i ∈ members, marked.testBit i = false) ∧ splitBlock classes marked r b =
        { blocks := (r.blocks.setIfInBounds b (members.filter fun i => !marked.testBit i)).push
            (members.filter marked.testBit)
          blockOf := assign r.blockOf (members.filter marked.testBit) r.blocks.size
          splitters := classes.toList.foldl (fun w k => (w.push ⟨b, k⟩).push ⟨r.blocks.size, k⟩)
            r.splitters } := by
  rw [splitBlock, there, Option.getD_some, List.partition_eq_filter_filter]
  dsimp only
  split
  · next all =>
    refine .inl ⟨fun i member => ?_, rfl⟩
    have := List.filter_eq_nil_iff.1 (List.isEmpty_iff.1 all) i member
    simpa using this
  · next some =>
    refine .inr ⟨?_, rfl⟩
    obtain ⟨i, member⟩ := List.exists_mem_of_ne_nil _ fun none => some (List.isEmpty_iff.2 none)
    obtain ⟨member, unmarked⟩ := List.mem_filter.1 member
    exact ⟨i, member, by simpa using unmarked⟩

section Pairs

variable {w : WorkList Splitter} {ks : List Nat}

theorem mem_pushPairs : s ∈ (ks.foldl (fun w k => (w.push ⟨B, k⟩).push ⟨C, k⟩) w).toList ↔
    s ∈ w.toList ∨ ∃ k ∈ ks, s = ⟨B, k⟩ ∨ s = ⟨C, k⟩ := by
  induction ks generalizing w with
  | nil => simp
  | cons k rest ih =>
    rw [List.foldl_cons, ih, WorkList.mem_push, WorkList.mem_push, List.exists_mem_cons_iff,
      ← or_assoc, or_comm (b := s ∈ w.toList), or_assoc, or_comm (a := s = ⟨C, k⟩)]

theorem length_pushPairs_le :
    (ks.foldl (fun w k => (w.push ⟨B, k⟩).push ⟨C, k⟩) w).toList.length ≤
      w.toList.length + 2 * ks.length := by
  induction ks generalizing w with
  | nil => simp
  | cons k rest ih =>
    have one := WorkList.length_push_le w ⟨B, k⟩
    have two := WorkList.length_push_le (w.push ⟨B, k⟩) ⟨C, k⟩
    have := ih (w := (w.push ⟨B, k⟩).push ⟨C, k⟩)
    rw [List.foldl_cons, List.length_cons]
    omega

end Pairs

/-- Marked states make up the new block, the other ones stay. -/
theorem Partition.split (h : Partition d r) (there : r.blocks[b]? = some members)
    (inside : ∃ i : Nat, r.blockOf[i]? = some b ∧ marked.testBit i = true)
    (outside : ∃ i ∈ members, marked.testBit i = false)
    (size : r'.blockOf.size = r.blockOf.size)
    (blocks : r'.blocks = (r.blocks.setIfInBounds b
      (members.filter fun i => !marked.testBit i)).push (members.filter marked.testBit))
    (blockOf : ∀ i B : Nat, r'.blockOf[i]? = some B ↔
      B = r.blocks.size ∧ r.blockOf[i]? = some b ∧ marked.testBit i = true ∨
        r.blockOf[i]? = some B ∧ ¬ (B = b ∧ marked.testBit i = true)) : Partition d r' := by
  have member := h.member b members there
  have small : b < r.blocks.size := (Array.getElem?_eq_some_iff.1 there).1
  have more : r'.blocks.size = r.blocks.size + 1 := by
    simp only [blocks, Array.size_push, Array.size_setIfInBounds]
  have new (i : Nat) : r.blockOf[i]? ≠ some r.blocks.size := fun here =>
    Nat.lt_irrefl _ (h.lt i _ here)
  constructor
  case size => rw [size, h.size]
  case member =>
    intro B members' there' i
    rw [blocks, Array.getElem?_push, Array.size_setIfInBounds] at there'
    rw [blockOf]
    split at there'
    · next last =>
      cases there'
      rw [List.mem_filter, member, last, or_iff_left fun old => new i old.1]
      exact (and_iff_right rfl).symm
    · next old =>
      rw [or_iff_right fun last => old last.1]
      by_cases same : B = b
      · subst same
        rw [Array.getElem?_setIfInBounds_self_of_lt small] at there'
        cases there'
        simp [member]
      · rw [Array.getElem?_setIfInBounds_ne (Ne.symm same)] at there'
        rw [h.member B members' there', and_iff_left fun both => same both.1]
  case inhabited =>
    intro B le
    rw [more] at le
    by_cases last : B = r.blocks.size
    · obtain ⟨i, here, isMarked⟩ := inside
      exact ⟨i, (blockOf i B).2 (.inl ⟨last, here, isMarked⟩)⟩
    · by_cases same : B = b
      · obtain ⟨i, inBlock, unmarked⟩ := outside
        refine ⟨i, (blockOf i B).2 (.inr ⟨same ▸ (member i).1 inBlock, ?_⟩)⟩
        simp [unmarked]
      · obtain ⟨i, here⟩ := h.inhabited B (by omega)
        exact ⟨i, (blockOf i B).2 (.inr ⟨here, fun both => same both.1⟩)⟩
  case lt =>
    intro i B here
    rw [more]
    rcases (blockOf i B).1 here with ⟨rfl, -⟩ | ⟨old, -⟩
    · exact Nat.lt_succ_self _
    · exact Nat.lt_succ_of_lt (h.lt i B old)
  case accept =>
    intro B i j at_i at_j
    rcases (blockOf i B).1 at_i with ⟨rfl, old, -⟩ | ⟨old, -⟩
    · rcases (blockOf j _).1 at_j with ⟨-, old', -⟩ | ⟨old', -⟩
      · exact h.accept b i j old old'
      · exact absurd old' (new j)
    · rcases (blockOf j B).1 at_j with ⟨rfl, -⟩ | ⟨old', -⟩
      · exact absurd old (new i)
      · exact h.accept B i j old old'

structure Splits (d : Dfa) (marked b : Nat) (r r' : Refinement) : Prop where
  partition : Partition d r'
  blocks : r'.blocks.size = r.blocks.size + 1
  blockOf : ∀ i B : Nat, r'.blockOf[i]? = some B ↔
    B = r.blocks.size ∧ r.blockOf[i]? = some b ∧ marked.testBit i = true ∨
      r.blockOf[i]? = some B ∧ ¬ (B = b ∧ marked.testBit i = true)
  splitters : ∀ s, s ∈ r'.splitters.toList ↔ s ∈ r.splitters.toList ∨
    ∃ k ∈ d.classes.toList, s = ⟨b, k⟩ ∨ s = ⟨r.blocks.size, k⟩
  length : r'.splitters.toList.length ≤ r.splitters.toList.length + 2 * d.classes.size

/-- The steps left: the pending splitters, and those that further splits may bring. -/
def measure (d : Dfa) (r : Refinement) : Nat :=
  r.splitters.toList.length + 2 * d.classes.size * (d.states.size - r.blocks.size)

theorem Splits.measure (h : Splits d marked b r r') : r'.measure d ≤ r.measure d := by
  have room : d.states.size - r.blocks.size = d.states.size - r'.blocks.size + 1 := by
    have := h.partition.size_le
    have := h.blocks
    omega
  have := h.length
  rw [Refinement.measure, Refinement.measure, room, Nat.mul_add]
  omega

/-- A block with a marked state has only marked states, or it is split. -/
theorem splitBlock_spec (h : Partition d r) (small : b < r.blocks.size)
    (inside : ∃ i : Nat, r.blockOf[i]? = some b ∧ marked.testBit i = true) :
    (∀ i : Nat, r.blockOf[i]? = some b → marked.testBit i = true) ∧
        splitBlock d.classes marked r b = r ∨
      Splits d marked b r (splitBlock d.classes marked r b) := by
  have there := Array.getElem?_eq_getElem small
  generalize r.blocks[b] = members at there
  have member := h.member b members there
  rcases splitBlock_cases d.classes marked there with ⟨all, eq⟩ | ⟨outside, eq⟩
  · exact .inl ⟨fun i here => all i ((member i).2 here), eq⟩
  · refine .inr ?_
    generalize splitBlock d.classes marked r b = r' at eq
    have blockOf (i B : Nat) : r'.blockOf[i]? = some B ↔
        B = r.blocks.size ∧ r.blockOf[i]? = some b ∧ marked.testBit i = true ∨
          r.blockOf[i]? = some B ∧ ¬ (B = b ∧ marked.testBit i = true) := by
      rw [eq]
      simp only [getElem?_assign, List.mem_filter, member]
      by_cases moves : r.blockOf[i]? = some b ∧ marked.testBit i = true
      · simp [moves, eq_comm]
      · rw [if_neg moves]
        refine ⟨fun here => .inr ⟨here, ?_⟩, ?_⟩
        · rintro ⟨rfl, isMarked⟩
          exact moves ⟨here, isMarked⟩
        · rintro (⟨-, new⟩ | ⟨old, -⟩)
          · exact absurd new moves
          · exact old
    have size : r'.blocks.size = r.blocks.size + 1 := by
      simp [eq]
    refine ⟨?_, size, blockOf, fun s => ?_, ?_⟩
    · exact h.split there inside outside (by simp [eq]) (by rw [eq]) blockOf
    · rw [eq]
      exact mem_pushPairs
    · rw [eq]
      refine Nat.le_trans length_pushPairs_le (Nat.le_of_eq ?_)
      simp only [ByteClasses.toList, List.length_range]

def Enters (d : Dfa) (r : Refinement) (k C i : Nat) : Prop :=
  ∃ j, (d.state i).transitions.get? k = some j ∧ r.blockOf[j]? = some C

def Agree (r : Refinement) (P : Nat → Prop) : Prop :=
  ∀ B i j : Nat, r.blockOf[i]? = some B → r.blockOf[j]? = some B → (P i ↔ P j)

theorem Splits.same_block (h : Splits d marked b r r') (old : Partition d r)
    (at_i : r'.blockOf[i]? = some B) (at_j : r'.blockOf[j]? = some B) :
    ∃ B', r.blockOf[i]? = some B' ∧ r.blockOf[j]? = some B' := by
  rcases (h.blockOf i B).1 at_i with ⟨rfl, here, -⟩ | ⟨here, -⟩
  · rcases (h.blockOf j _).1 at_j with ⟨-, here', -⟩ | ⟨here', -⟩
    · exact ⟨b, here, here'⟩
    · exact absurd (old.lt j _ here') (Nat.lt_irrefl _)
  · rcases (h.blockOf j B).1 at_j with ⟨rfl, -⟩ | ⟨here', -⟩
    · exact absurd (old.lt i _ here) (Nat.lt_irrefl _)
    · exact ⟨B, here, here'⟩

theorem Splits.agree {P : Nat → Prop} (h : Splits d marked b r r') (old : Partition d r)
    (agree : Agree r P) : Agree r' P := by
  intro B i j at_i at_j
  obtain ⟨B', here, here'⟩ := h.same_block old at_i at_j
  exact agree B' i j here here'

/-- Other blocks stay as they are. -/
theorem Splits.blockOf_other (h : Splits d marked b r r') (new : C ≠ r.blocks.size)
    (other : C ≠ b) : r'.blockOf[i]? = some C ↔ r.blockOf[i]? = some C := by
  rw [h.blockOf, or_iff_right fun last => new last.1]
  exact and_iff_left fun both => other both.1

theorem Splits.enters_other (h : Splits d marked b r r') (new : C ≠ r.blocks.size)
    (other : C ≠ b) : Enters d r' k C = Enters d r k C := by
  refine funext fun i => propext (exists_congr fun j => and_congr_right fun _ => ?_)
  exact h.blockOf_other new other

/-- What holds while the blocks in `touched` have yet to be split. -/
structure Working (d : Dfa) (marked : Nat) (touched : List Nat) (r : Refinement) : Prop where
  partition : Partition d r
  settled : ∀ C < r.blocks.size, ∀ k ∈ d.classes.toList,
    (⟨C, k⟩ : Splitter) ∈ r.splitters.toList ∨ Agree r (Enters d r k C) ∨
      ∀ i, Enters d r k C i ↔ marked.testBit i = true
  split : ∀ B i j : Nat, r.blockOf[i]? = some B → r.blockOf[j]? = some B →
    B ∈ touched ∨ (marked.testBit i = true ↔ marked.testBit j = true)
  touched : ∀ B ∈ touched, ∃ i : Nat, r.blockOf[i]? = some B ∧ marked.testBit i = true

/-- The next block that is touched. -/
theorem Working.splitBlock_spec (h : Working d marked (b :: touched) r) :
    (∀ i : Nat, r.blockOf[i]? = some b → marked.testBit i = true) ∧
        splitBlock d.classes marked r b = r ∨
      Splits d marked b r (splitBlock d.classes marked r b) := by
  obtain ⟨i, here, isMarked⟩ := h.touched b List.mem_cons_self
  exact Refinement.splitBlock_spec h.partition (h.partition.lt i b here) ⟨i, here, isMarked⟩

theorem working_splitBlock (h : Working d marked (b :: touched) r) (fresh : b ∉ touched) :
    Working d marked touched (splitBlock d.classes marked r b) ∧
      (splitBlock d.classes marked r b).measure d ≤ r.measure d := by
  obtain ⟨-, others⟩ := List.forall_mem_cons.1 h.touched
  rcases h.splitBlock_spec with ⟨all, eq⟩ | splits
  · rw [eq]
    refine ⟨⟨h.partition, h.settled, fun B i j at_i at_j => ?_, others⟩, Nat.le_refl _⟩
    by_cases same : B = b
    · subst same
      exact .inr (iff_of_true (all i at_i) (all j at_j))
    · exact (h.split B i j at_i at_j).imp_left fun member =>
        (List.mem_cons.1 member).resolve_left same
  · generalize splitBlock d.classes marked r b = r' at splits
    refine ⟨⟨splits.partition, ?settled, ?split, ?touched⟩, splits.measure⟩
    case settled =>
      intro C le k inClasses
      by_cases changed : C = b ∨ C = r.blocks.size
      · refine .inl ((splits.splitters _).2 (.inr ⟨k, inClasses, ?_⟩))
        exact changed.imp (congrArg (Splitter.mk · k)) (congrArg (Splitter.mk · k))
      · obtain ⟨other, new⟩ := not_or.1 changed
        have le : C < r.blocks.size := by
          have := splits.blocks
          omega
        rw [splits.enters_other new other]
        rcases h.settled C le k inClasses with waits | agree | current
        · exact .inl ((splits.splitters _).2 (.inl waits))
        · exact .inr (.inl (splits.agree h.partition agree))
        · exact .inr (.inr current)
    case split =>
      intro B i j at_i at_j
      rcases (splits.blockOf i B).1 at_i with ⟨rfl, -, marked_i⟩ | ⟨old_i, stays_i⟩
      · rcases (splits.blockOf j _).1 at_j with ⟨-, -, marked_j⟩ | ⟨old_j, -⟩
        · exact .inr (iff_of_true marked_i marked_j)
        · exact absurd (h.partition.lt j _ old_j) (Nat.lt_irrefl _)
      · rcases (splits.blockOf j B).1 at_j with ⟨rfl, -⟩ | ⟨old_j, stays_j⟩
        · exact absurd (h.partition.lt i _ old_i) (Nat.lt_irrefl _)
        · by_cases same : B = b
          · exact .inr (iff_of_false (fun isMarked => stays_i ⟨same, isMarked⟩)
              fun isMarked => stays_j ⟨same, isMarked⟩)
          · exact (h.split B i j old_i old_j).imp_left fun member =>
              (List.mem_cons.1 member).resolve_left same
    case touched =>
      intro B member
      obtain ⟨i, here, isMarked⟩ := others B member
      refine ⟨i, (splits.blockOf i B).2 (.inr ⟨here, ?_⟩), isMarked⟩
      rintro ⟨rfl, -⟩
      exact fresh member

theorem working_foldl_splitBlock (h : Working d marked touched r) (nodup : touched.Nodup) :
    Working d marked [] (touched.foldl (splitBlock d.classes marked) r) ∧
      (touched.foldl (splitBlock d.classes marked) r).measure d ≤ r.measure d := by
  induction touched generalizing r with
  | nil => exact ⟨h, Nat.le_refl _⟩
  | cons b rest ih =>
    obtain ⟨fresh, nodup⟩ := List.nodup_cons.1 nodup
    obtain ⟨one, less⟩ := working_splitBlock h fresh
    obtain ⟨all, less'⟩ := ih one nodup
    exact ⟨all, Nat.le_trans less' less⟩

/-- The states that a splitter marks. -/
theorem mem_entering (h : Partition d r) :
    i ∈ r.entering (inverse d) s ↔ Enters d r s.byteClass s.block i := by
  rw [entering, List.mem_flatMap]
  cases there : r.blocks[s.block]? with
  | none =>
    simp only [Option.getD_none, List.not_mem_nil, false_and, exists_false, false_iff]
    rintro ⟨j, -, here⟩
    exact Nat.not_lt_of_le (Array.getElem?_eq_none_iff.1 there) (h.lt j _ here)
  | some members =>
    apply exists_congr
    intro j
    rw [Option.getD_some, h.member _ _ there]
    change _ ∧ i ∈ sources (inverse d) j s.byteClass ↔ _
    rw [mem_sources_inverse, ← h.size]
    constructor
    · rintro ⟨here, -, leads⟩
      exact ⟨leads, here⟩
    · rintro ⟨leads, here⟩
      exact ⟨here, (Array.getElem?_eq_some_iff.1 here).1, leads⟩

theorem testBit_mark {m : Nat} :
    (m ||| 1 <<< i).testBit j = true ↔ j = i ∨ m.testBit j = true := by
  rw [Nat.testBit_or, Bool.or_eq_true, Nat.one_shiftLeft, Nat.testBit_two_pow, decide_eq_true_eq,
    or_comm, eq_comm (a := i)]

theorem testBit_foldl (states : List Nat) (m : Nat) :
    (states.foldl (fun m i => m ||| 1 <<< i) m).testBit j = true ↔
      j ∈ states ∨ m.testBit j = true := by
  induction states generalizing m with
  | nil => simp
  | cons i rest ih =>
    rw [List.foldl_cons, ih, testBit_mark, List.mem_cons, or_left_comm, or_assoc]

structure Valid (d : Dfa) (r : Refinement) : Prop where
  partition : Partition d r
  settled : ∀ C < r.blocks.size, ∀ k ∈ d.classes.toList,
    (⟨C, k⟩ : Splitter) ∈ r.splitters.toList ∨ Agree r (Enters d r k C)

theorem Partition.lt_of_enters (h : Partition d r) (enters : Enters d r k C i) :
    i < r.blockOf.size := by
  obtain ⟨j, leads, -⟩ := enters
  rw [h.size]
  by_contra outside
  rw [Dfa.state, Array.getElem?_eq_none (Nat.le_of_not_lt outside)] at leads
  cases leads

/-- Before the blocks with marked states are split. -/
theorem working_of_valid (h : Valid d r) {splitters : WorkList Splitter}
    (waits : r.splitters.toList = s :: splitters.toList)
    (isMarked : ∀ i, marked.testBit i = true ↔ Enters d r s.byteClass s.block i)
    (isTouched : ∀ B, B ∈ touched ↔ ∃ i, Enters d r s.byteClass s.block i ∧
      r.blockOf[i]?.getD 0 = B) : Working d marked touched { r with splitters } := by
  have touches {i B : Nat} (here : r.blockOf[i]? = some B) (mark : marked.testBit i = true) :
      B ∈ touched := by
    refine (isTouched B).2 ⟨i, (isMarked i).1 mark, ?_⟩
    simp only [here, Option.getD_some]
  constructor
  case partition =>
    exact ⟨h.partition.size, h.partition.member, h.partition.inhabited, h.partition.lt,
      h.partition.accept⟩
  case settled =>
    intro C le k inClasses
    rcases h.settled C le k inClasses with pending | agree
    · rw [waits] at pending
      rcases List.mem_cons.1 pending with rfl | pending
      · exact .inr (.inr fun i => (isMarked i).symm)
      · exact .inl pending
    · exact .inr (.inl agree)
  case split =>
    intro B i j at_i at_j
    by_cases member : B ∈ touched
    · exact .inl member
    · exact .inr (iff_of_false (fun mark => member (touches at_i mark))
        fun mark => member (touches at_j mark))
  case touched =>
    intro B member
    obtain ⟨i, enters, rfl⟩ := (isTouched B).1 member
    refine ⟨i, ?_, (isMarked i).2 enters⟩
    dsimp only
    simp only [Array.getElem?_eq_getElem (h.partition.lt_of_enters enters), Option.getD_some]

/-- After they are split, the states of a block agree on the splitter. -/
theorem valid_of_working (h : Working d marked [] r) : Valid d r := by
  refine ⟨h.partition, fun C le k inClasses => ?_⟩
  rcases h.settled C le k inClasses with pending | agree | current
  · exact .inl pending
  · exact .inr agree
  · refine .inr fun B i j at_i at_j => ?_
    rw [current, current]
    exact (h.split B i j at_i at_j).resolve_left List.not_mem_nil

/-- The states that enter a block are marked, and the blocks that they are in are touched. -/
theorem working_entering (h : Valid d r) {splitters : WorkList Splitter}
    (waits : r.splitters.toList = s :: splitters.toList) :
    Working d ((r.entering (inverse d) s).foldl (fun m i => m ||| 1 <<< i) 0)
      (sortedSet ((r.entering (inverse d) s).map fun i => r.blockOf[i]?.getD 0))
      { r with splitters } := by
  refine working_of_valid h waits (fun i => ?_) fun B => ?_
  · rw [testBit_foldl, Nat.zero_testBit, or_iff_left Bool.false_ne_true,
      mem_entering h.partition]
  · simp only [mem_sortedSet, List.mem_map, mem_entering h.partition]

theorem nodup_sortedSet (l : List Nat) : (sortedSet l).Nodup :=
  (pairwise_sortedSet l).imp fun less => Nat.ne_of_lt (Nat.compare_eq_lt.1 less)

theorem step_valid (h : Valid d r) (ongoing : r.more = true) :
    Valid d (r.step d.classes (inverse d)) ∧
      (r.step d.classes (inverse d)).measure d < r.measure d := by
  obtain ⟨s, splitters, popped, waits⟩ := WorkList.exists_pop ongoing
  rw [step, popped]
  dsimp only
  obtain ⟨working, le⟩ :=
    working_foldl_splitBlock (working_entering h waits) (nodup_sortedSet _)
  refine ⟨valid_of_working working, Nat.lt_of_le_of_lt le ?_⟩
  rw [measure, measure, waits, List.length_cons]
  dsimp only
  omega

end Refinement
end Lalr.Lexer.Minimal
