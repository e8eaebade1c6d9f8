import Lalr.Proofs.Lexer.Coarsest
import Lalr.Proofs.Lookup.Minimal

/-! The rounds of partition refinement, with marks that are kept from one round to the next. Each
round starts with blocks that partition the states, without marks, and with splitters of blocks
that exist; and the rounds are at most as many as the splitters that the blocks can bring. -/
namespace Lalr.Lexer.Minimal

variable {d : Dfa} {r : Refinement} {states : List Nat} {blockOf : Array Nat} {marked m n : Nat}

/-- What a round works on. The marks of all states are cleared at its end. -/
structure Sweep where
  refinement : Refinement
  marked : Nat

namespace Sweep

/-- Mark a state and note its block, unless it is marked already. -/
def touch? (n : Nat) (blockOf : Array Nat) (marks : Nat × List Nat) (i : Nat) :
    Option (Nat × List Nat) := do
  if ← isMarked? n marks.1 i then return marks
  else return (← mark? n marks.1 i, marks.2 ++ [← blockOf[i]?])

def clear (n marked : Nat) : Nat := marked >>> n <<< n

def round? (d : Dfa) (inv : Array (OrderedMap Nat (List Nat))) (s : Sweep) : Option Sweep :=
  match s.refinement.splitters.pop with
  | none => some s
  | some (splitter, splitters) => do
    let states ← s.refinement.entering? inv splitter
    let (marked, touched) ← states.foldlM (touch? d.states.size s.refinement.blockOf) (s.marked, [])
    let refinement ← (sortedSet touched).foldlM
      (Refinement.splitBlock? d.states.size d.classes marked) { s.refinement with splitters }
    return ⟨refinement, clear d.states.size marked⟩

structure Ready (d : Dfa) (s : Sweep) : Prop where
  nonempty : ∀ members ∈ s.refinement.blocks.toList, members ≠ []
  disjoint : s.refinement.blocks.toList.Pairwise List.Disjoint
  cover : ∀ i, i < d.states.size ↔ ∃ members ∈ s.refinement.blocks.toList, i ∈ members
  blockOf : ∀ i B : Nat, s.refinement.blockOf[i]? = some B ↔
    ∃ members, s.refinement.blocks[B]? = some members ∧ i ∈ members
  unmarked : ∀ i, s.marked.testBit i = false
  waiting : ∀ splitter ∈ s.refinement.splitters.toList,
    splitter.block < s.refinement.blocks.size

end Sweep

inductive Rounds (d : Dfa) : Nat → Sweep → Prop where
  | start : Rounds d 0 ⟨.initial d, 0⟩
  | next {m : Nat} {s t : Sweep} : Rounds d m s → s.refinement.more = true →
      s.round? d (inverse d) = some t → Rounds d (m + 1) t

namespace Sweep

/-- Each state is marked once, and the blocks noted are those of states that were not marked. -/
theorem foldlM_touch?_eq (inBounds : ∀ i ∈ states, i < n ∧ i < blockOf.size) (marked : Nat)
    (touched : List Nat) :
    ∃ touched', states.foldlM (touch? n blockOf) (marked, touched) =
        some (states.foldl (fun m i => m ||| 1 <<< i) marked, touched') ∧
      ∀ B, B ∈ touched' ↔ B ∈ touched ∨
        ∃ i ∈ states, marked.testBit i = false ∧ blockOf[i]?.getD 0 = B := by
  induction states generalizing marked touched with
  | nil => exact ⟨touched, rfl, by simp⟩
  | cons i rest ih =>
    obtain ⟨⟨small, known⟩, others⟩ := List.forall_mem_cons.1 inBounds
    cases already : marked.testBit i with
    | true =>
      have same : marked ||| 1 <<< i = marked := by
        refine Nat.eq_of_testBit_eq fun j => Bool.eq_iff_iff.2 ?_
        rw [Refinement.testBit_mark, or_iff_right_of_imp]
        rintro rfl
        exact already
      obtain ⟨touched', folded, mem⟩ := ih others marked touched
      refine ⟨touched', ?_, fun B => ?_⟩
      · rw [List.foldlM_cons, List.foldl_cons, same, ← folded]
        simp [touch?, isMarked?, small, already]
      · rw [mem, List.exists_mem_cons_iff, already]
        simp
    | false =>
      obtain ⟨touched', folded, mem⟩ := ih others (marked ||| 1 <<< i)
        (touched ++ [blockOf[i]?.getD 0])
      refine ⟨touched', ?_, fun B => ?_⟩
      · rw [List.foldlM_cons, List.foldl_cons, ← folded]
        simp [touch?, isMarked?, mark?, small, already, known]
      · have unmarked (j : Nat) : (marked ||| 1 <<< i).testBit j = false ↔
            j ≠ i ∧ marked.testBit j = false := by
          rw [← Bool.not_eq_true, Refinement.testBit_mark, not_or, Bool.not_eq_true]
        simp only [mem, unmarked, List.mem_append, List.mem_singleton, List.exists_mem_cons_iff,
          already, true_and]
        grind

theorem clear_eq_zero (inBounds : ∀ i, marked.testBit i = true → i < n) : clear n marked = 0 := by
  refine Nat.eq_of_testBit_eq fun i => ?_
  rw [clear, Nat.testBit_shiftLeft, Nat.testBit_shiftRight, Nat.zero_testBit, Bool.and_eq_false_iff]
  by_cases small : i < n
  · exact .inl (by simpa using small)
  · refine .inr (Bool.eq_false_iff.2 fun isMarked => ?_)
    have := inBounds _ isMarked
    omega

/-- A round that starts without marks is a step of the refinement, and ends without marks. -/
theorem round?_eq (targets : d.Targeted) (h : Refinement.Valid d r) (waiting : r.Waiting)
    (ongoing : r.more = true) :
    round? d (inverse d) ⟨r, 0⟩ = some ⟨r.step d.classes (inverse d), 0⟩ := by
  obtain ⟨splitter, splitters, popped, waits⟩ := WorkList.exists_pop ongoing
  have small := waiting splitter (by rw [waits]; exact List.mem_cons_self ..)
  have rest : Refinement.Waiting { r with splitters } := fun s member =>
    waiting s (by rw [waits]; exact List.mem_cons_of_mem _ member)
  have inBounds : ∀ i ∈ r.entering (inverse d) splitter, i < d.states.size ∧ i < r.blockOf.size := by
    intro i member
    have := h.partition.lt_of_enters ((Refinement.mem_entering h.partition).1 member)
    exact ⟨h.partition.size ▸ this, this⟩
  obtain ⟨touched, marking, mem⟩ := foldlM_touch?_eq inBounds 0 []
  -- Blocks are noted once for each state that is marked; as sets the two lists are the same.
  have same : sortedSet touched =
      sortedSet ((r.entering (inverse d) splitter).map fun i => r.blockOf[i]?.getD 0) := by
    refine eq_of_pairwise_lt (pairwise_sortedSet _) (pairwise_sortedSet _) fun B => ?_
    rw [mem_sortedSet, mem_sortedSet, mem, List.mem_map]
    simp
  have splitting := (Refinement.foldlM_splitBlock?_eq (Refinement.working_entering h waits)
    (Refinement.nodup_sortedSet _) rest).1
  have cleared : clear d.states.size
      ((r.entering (inverse d) splitter).foldl (fun m i => m ||| 1 <<< i) 0) = 0 := by
    refine clear_eq_zero fun i isMarked => ?_
    rcases (Refinement.testBit_foldl _ 0).1 isMarked with member | none
    · exact (inBounds i member).1
    · simp at none
  rw [round?, Refinement.step, popped]
  simp only [Refinement.entering?_eq targets h.partition small, bind, Option.bind_some, marking,
    same, splitting, cleared, pure]

theorem ready (partition : Refinement.Partition d r) (waiting : r.Waiting) : Ready d ⟨r, 0⟩ := by
  have blockOf (i B : Nat) : r.blockOf[i]? = some B ↔
      ∃ members, r.blocks[B]? = some members ∧ i ∈ members := by
    constructor
    · intro here
      have there := Array.getElem?_eq_getElem (partition.lt i B here)
      exact ⟨_, there, (partition.member B _ there i).2 here⟩
    · rintro ⟨members, there, member⟩
      exact (partition.member B members there i).1 member
  constructor
  case nonempty =>
    rintro members inBlocks rfl
    obtain ⟨B, there⟩ := Array.mem_iff_getElem?.1 (Array.mem_toList_iff.1 inBlocks)
    obtain ⟨i, here⟩ := partition.inhabited B (Array.getElem?_eq_some_iff.1 there).1
    exact List.not_mem_nil ((partition.member B [] there i).2 here)
  case disjoint =>
    rw [List.pairwise_iff_getElem]
    intro B C small small' less i inB inC
    have atB := (blockOf i B).2 ⟨_, by rw [← Array.getElem?_toList, List.getElem?_eq_getElem small],
      inB⟩
    have atC := (blockOf i C).2 ⟨_, by rw [← Array.getElem?_toList, List.getElem?_eq_getElem small'],
      inC⟩
    exact Nat.ne_of_lt less (Option.some.inj (atB.symm.trans atC))
  case cover =>
    intro i
    constructor
    · intro small
      obtain ⟨B, members, here, there⟩ := partition.exists_block small
      exact ⟨members, Array.mem_toList_iff.2 (Array.mem_of_getElem? there),
        (partition.member B members there i).2 here⟩
    · rintro ⟨members, inBlocks, member⟩
      obtain ⟨B, there⟩ := Array.mem_iff_getElem?.1 (Array.mem_toList_iff.1 inBlocks)
      have here := (partition.member B members there i).1 member
      exact partition.size ▸ (Array.getElem?_eq_some_iff.1 here).1
  case blockOf => exact blockOf
  case unmarked => exact Nat.zero_testBit
  case waiting => exact waiting

end Sweep

namespace Rounds

variable {s : Sweep}

/-- What each round keeps. The rounds made and those that may still follow are at most as many as
the refinement allows for. -/
theorem invariant (targets : d.Targeted) (h : Rounds d m s) :
    Refinement.Valid d s.refinement ∧ s.refinement.Waiting ∧ s.marked = 0 ∧
      m + s.refinement.measure d ≤ Refinement.bound d := by
  induction h with
  | start =>
    obtain ⟨valid, enough⟩ := Refinement.initial_valid d
    exact ⟨valid, Refinement.initial_waiting d, rfl, by simpa using enough⟩
  | @next m s t _ ongoing round ih =>
    obtain ⟨valid, waiting, unmarked, paid⟩ := ih
    obtain ⟨r, marked⟩ := s
    subst unmarked
    have stepped := Option.some.inj
      (round.symm.trans (Sweep.round?_eq targets valid waiting ongoing))
    obtain ⟨valid', less⟩ := Refinement.step_valid valid ongoing
    have waiting' := (Refinement.step?_eq targets valid waiting ongoing).2
    rw [stepped]
    refine ⟨valid', waiting', rfl, ?_⟩
    dsimp only at paid less ⊢
    omega

theorem ready (targets : d.Targeted) (h : Rounds d m s) : s.Ready d := by
  obtain ⟨valid, waiting, unmarked, -⟩ := h.invariant targets
  obtain ⟨r, marked⟩ := s
  subst unmarked
  exact Sweep.ready valid.partition waiting

/-- A round finds what it looks up. -/
theorem exists_round (targets : d.Targeted) (h : Rounds d m s) (ongoing : s.refinement.more = true) :
    ∃ t, s.round? d (inverse d) = some t ∧
      t.refinement = s.refinement.step d.classes (inverse d) := by
  obtain ⟨valid, waiting, unmarked, -⟩ := h.invariant targets
  obtain ⟨r, marked⟩ := s
  subst unmarked
  exact ⟨_, Sweep.round?_eq targets valid waiting ongoing, rfl⟩

/-- The rounds end with the refinement. -/
theorem exists_last (targets : d.Targeted) : ∃ m s, Rounds d m s ∧ s.refinement = refine d := by
  have keep (r : Refinement) (h : ∃ m s, Rounds d m s ∧ s.refinement = r) (ongoing : r.more = true) :
      ∃ m s, Rounds d m s ∧ s.refinement = r.step d.classes (inverse d) := by
    obtain ⟨m, s, before, rfl⟩ := h
    obtain ⟨t, round, refined⟩ := before.exists_round targets ongoing
    exact ⟨m + 1, t, before.next ongoing round, refined⟩
  exact iterate_invariant keep (Refinement.bound d) _ ⟨0, _, start, rfl⟩

end Rounds

/-- At the start of each round the blocks are not empty, are disjoint and hold all states, the block
of each state is known, no state is marked, and each splitter names a block; the round finds what it
looks up. The rounds end with no splitter left, and are at most as many as one for each class and
first block, and two for each class and each further block that there can be. -/
theorem rounds_keep_partition (targets : d.Targeted) :
    let n := d.states.size
    let k := (Refinement.initial d).blocks.size
    (∀ m s, Rounds d m s → s.Ready d ∧ m ≤ d.classes.size * (k + 2 * (n - k)) ∧
      (s.refinement.more = true → ∃ t, s.round? d (inverse d) = some t)) ∧
    ∃ m s, Rounds d m s ∧ m ≤ d.classes.size * (k + 2 * (n - k)) ∧
      s.refinement.splitters.toList = [] ∧ s.refinement = refine d := by
  intro n k
  have first : k = (blocksByToken d).length := List.size_toArray ..
  have bound {m : Nat} {s : Sweep} (h : Rounds d m s) :
      m ≤ d.classes.size * (k + 2 * (n - k)) := by
    obtain ⟨-, -, -, paid⟩ := h.invariant targets
    rw [Refinement.bound, ← first] at paid
    exact Nat.le_trans (Nat.le_add_right ..) paid
  refine ⟨fun m s h => ⟨h.ready targets, bound h, fun ongoing => ?_⟩, ?_⟩
  · obtain ⟨t, round, -⟩ := h.exists_round targets ongoing
    exact ⟨t, round⟩
  · obtain ⟨m, s, h, last⟩ := Rounds.exists_last targets
    exact ⟨m, s, h, bound h, last ▸ (refine_valid d).2, last⟩

/-- Three states in a row, none of which accepts: their block is split by itself. -/
def stairs : Dfa where
  classes := ⟨Array.replicate 256 0, 1⟩
  states := #[⟨[0], .ofList [(0, 1)], none⟩, ⟨[1], .ofList [(0, 2)], none⟩, ⟨[2], ∅, none⟩]

theorem rounds_keep_partition_stairs : stairs.Targeted ∧
    ∃ m s, Rounds stairs m s ∧ m ≤ 5 ∧ s.Ready stairs ∧ s.refinement.splitters.toList = [] ∧
      s.refinement.blocks = #[[2], [0], [1]] := by
  have targets : stairs.Targeted := (by decide +kernel : stairs.Closed).targets
  obtain ⟨always, m, s, rounds, le, idle, last⟩ := rounds_keep_partition targets
  have bound : stairs.classes.size * ((Refinement.initial stairs).blocks.size +
      2 * (stairs.states.size - (Refinement.initial stairs).blocks.size)) = 5 := by decide +kernel
  have blocks : (refine stairs).blocks = #[[2], [0], [1]] := by decide +kernel
  exact ⟨targets, m, s, rounds, bound ▸ le, (always m s rounds).1, idle, last ▸ blocks⟩

end Lalr.Lexer.Minimal
