import Lalr.Proofs.Lexer.Indexed

/-! The partition that minimization ends with is that of the states that no word tells apart. A
splitter never separates such states, and the states of a block that is not split any more agree
on every word. -/
namespace Lalr.Lexer

open Lalr.Lexer.Minimal

namespace Dfa

variable {d : Dfa} {i j k i' : Nat} {w : List Nat}

def follow (d : Dfa) (i : Nat) : List Nat → Option Nat
  | [] => some i
  | k :: rest => ((d.state i).transitions.get? k).bind fun j => d.follow j rest

/-- What is accepted where a word of classes leads to, if it leads anywhere. -/
def outcome (d : Dfa) (i : Nat) (w : List Nat) : Option (Option TerminalId) :=
  (d.follow i w).map fun j => (d.state j).accept

/-- No word tells the states apart: it leads somewhere from both or from none, and what is accepted
there is the same. -/
def Equivalent (d : Dfa) (i j : Nat) : Prop :=
  ∀ w, (∀ k ∈ w, k ∈ d.classes.toList) → d.outcome i w = d.outcome j w

structure Closed (d : Dfa) : Prop where
  keys : ∀ i k j, (d.state i).transitions.get? k = some j → k ∈ d.classes.toList
  targets : ∀ i k j, (d.state i).transitions.get? k = some j → j < d.states.size

theorem closed_iff : d.Closed ↔ ∀ s ∈ d.states.toList, ∀ e ∈ s.transitions.toList,
    e.1 ∈ d.classes.toList ∧ e.2 < d.states.size := by
  constructor
  · rintro closed s member ⟨k, j⟩ entry
    obtain ⟨i, rfl⟩ := exists_state_of_mem member
    have leads := OrderedMap.mem_toList_iff.1 entry
    exact ⟨closed.keys i k j leads, closed.targets i k j leads⟩
  · intro entries
    have leads (i k j : Nat) (leads : (d.state i).transitions.get? k = some j) :
        k ∈ d.classes.toList ∧ j < d.states.size := by
      rcases state_cases d i with there | none
      · have member := Array.mem_toList_iff.2 (Array.mem_of_getElem? there)
        exact entries _ member ⟨k, j⟩ (OrderedMap.mem_toList_iff.2 leads)
      · rw [none] at leads
        cases leads
    exact ⟨fun i k j h => (leads i k j h).1, fun i k j h => (leads i k j h).2⟩

instance (d : Dfa) : Decidable d.Closed := decidable_of_iff _ closed_iff.symm

theorem outcome_nil : d.outcome i [] = some (d.state i).accept := rfl

theorem outcome_cons : d.outcome i (k :: w) =
    ((d.state i).transitions.get? k).bind fun j => d.outcome j w := by
  simp only [outcome, follow, Option.map_bind, Function.comp_def]

theorem Equivalent.refl (d : Dfa) (i : Nat) : d.Equivalent i i := fun _ _ => rfl

theorem Equivalent.symm (h : d.Equivalent i j) : d.Equivalent j i :=
  fun w inClasses => (h w inClasses).symm

theorem Equivalent.accept (h : d.Equivalent i j) : (d.state i).accept = (d.state j).accept := by
  simpa only [outcome_nil, Option.some.injEq] using h [] (by simp)

/-- Equivalent states move to equivalent states. -/
theorem Equivalent.exists_move (h : d.Equivalent i j) (inClasses : k ∈ d.classes.toList)
    (leads : (d.state i).transitions.get? k = some i') :
    ∃ j', (d.state j).transitions.get? k = some j' ∧ d.Equivalent i' j' := by
  have behind (w : List Nat) (others : ∀ k ∈ w, k ∈ d.classes.toList) :
      d.outcome i' w = ((d.state j).transitions.get? k).bind fun j' => d.outcome j' w := by
    have := h (k :: w) (List.forall_mem_cons.2 ⟨inClasses, others⟩)
    rwa [outcome_cons, leads, Option.bind_some, outcome_cons] at this
  cases moves : (d.state j).transitions.get? k with
  | none =>
    have := behind [] (by simp)
    rw [outcome_nil, moves] at this
    cases this
  | some j' =>
    refine ⟨j', rfl, fun w others => ?_⟩
    rw [behind w others, moves, Option.bind_some]

end Dfa

namespace Minimal

variable {d : Dfa} {i j k B : Nat}

namespace Refinement

variable {r r' : Refinement} {b C marked : Nat} {touched : List Nat} {s : Splitter}

def Coarse (d : Dfa) (r : Refinement) : Prop :=
  ∀ i < d.states.size, ∀ j < d.states.size, d.Equivalent i j → r.blockOf[i]? = r.blockOf[j]?

theorem initial_coarse (d : Dfa) : Coarse d (initial d) := by
  intro i small j small' equivalent
  obtain ⟨B, members, there, member⟩ := exists_block small
  obtain ⟨-, a, -, same⟩ := block_spec there
  have member' : j ∈ members :=
    (same j).2 ⟨small', equivalent.accept.symm.trans ((same i).1 member).2⟩
  rw [blockOf_initial there member, blockOf_initial there member']

/-- Equivalent states enter the same blocks. -/
theorem Coarse.enters (h : Coarse d r) (closed : d.Closed) (equivalent : d.Equivalent i j)
    (enters : Enters d r k C i) : Enters d r k C j := by
  obtain ⟨i', leads, here⟩ := enters
  obtain ⟨j', leads', equivalent'⟩ := equivalent.exists_move (closed.keys i k i' leads) leads
  refine ⟨j', leads', ?_⟩
  rwa [← h i' (closed.targets i k i' leads) j' (closed.targets j k j' leads') equivalent']

/-- A split by marks that equivalent states share keeps these states together. -/
theorem Splits.coarse (h : Splits d marked b r r') (coarse : Coarse d r)
    (shared : ∀ i j, d.Equivalent i j → (marked.testBit i = true ↔ marked.testBit j = true)) :
    Coarse d r' := by
  intro i small j small' equivalent
  refine Option.ext fun B => ?_
  rw [h.blockOf, h.blockOf, coarse i small j small' equivalent, shared i j equivalent]

theorem coarse_foldl_splitBlock (h : Working d marked touched r) (nodup : touched.Nodup)
    (coarse : Coarse d r)
    (shared : ∀ i j, d.Equivalent i j → (marked.testBit i = true ↔ marked.testBit j = true)) :
    Coarse d (touched.foldl (splitBlock d.classes marked) r) := by
  induction touched generalizing r with
  | nil => exact coarse
  | cons b rest ih =>
    obtain ⟨fresh, nodup⟩ := List.nodup_cons.1 nodup
    refine ih (working_splitBlock h fresh).1 nodup ?_
    rcases h.splitBlock_spec with ⟨-, same⟩ | splits
    · rwa [same]
    · exact splits.coarse coarse shared

theorem step_coarse (closed : d.Closed) (h : Valid d r) (coarse : Coarse d r)
    (ongoing : r.more = true) : Coarse d (r.step d.classes (inverse d)) := by
  obtain ⟨s, splitters, popped, waits⟩ := WorkList.exists_pop ongoing
  rw [step, popped]
  dsimp only
  refine coarse_foldl_splitBlock (working_entering h waits) (nodup_sortedSet _) coarse ?_
  intro i j equivalent
  rw [testBit_foldl, testBit_foldl, mem_entering h.partition, mem_entering h.partition,
    Nat.zero_testBit, Nat.zero_testBit]
  exact or_congr_left ⟨coarse.enters closed equivalent, coarse.enters closed equivalent.symm⟩

end Refinement

/-- The refinement does not separate equivalent states. -/
theorem refine_coarse (closed : d.Closed) : Refinement.Coarse d (refine d) := by
  refine (iterate_invariant (P := fun r => Refinement.Valid d r ∧ Refinement.Coarse d r)
    (fun r ⟨valid, coarse⟩ ongoing => ?_) (Refinement.bound d) (Refinement.initial d) ?_).2
  · exact ⟨(Refinement.step_valid valid ongoing).1,
      Refinement.step_coarse closed valid coarse ongoing⟩
  · exact ⟨(Refinement.initial_valid d).1, Refinement.initial_coarse d⟩

/-- Nothing is left to separate the states of a block. -/
theorem equivalent_of_block (closed : d.Closed) (here : (refine d).blockOf[i]? = some B)
    (here' : (refine d).blockOf[j]? = some B) : d.Equivalent i j := by
  intro w
  induction w generalizing i j B with
  | nil =>
    intro _
    rw [Dfa.outcome_nil, Dfa.outcome_nil, (refine_stable d).1.accept B i j here here']
  | cons k rest ih =>
    intro inClasses
    obtain ⟨first, others⟩ := List.forall_mem_cons.1 inClasses
    rw [Dfa.outcome_cons, Dfa.outcome_cons]
    cases leads : (d.state i).transitions.get? k with
    | some i' =>
      obtain ⟨j', C, leads', at_i, at_j⟩ := Dfa.exists_move closed.targets first here here' leads
      rw [leads', Option.bind_some, Option.bind_some]
      exact ih at_i at_j others
    | none =>
      cases leads' : (d.state j).transitions.get? k with
      | none => rfl
      | some j' =>
        obtain ⟨i', -, moves, -⟩ := Dfa.exists_move closed.targets first here' here leads'
        rw [leads] at moves
        cases moves

/-- The blocks are the classes of equivalent states. -/
theorem blockOf_eq_iff (closed : d.Closed) (small : i < d.states.size)
    (small' : j < d.states.size) :
    (refine d).blockOf[i]? = (refine d).blockOf[j]? ↔ d.Equivalent i j := by
  constructor
  · intro same
    obtain ⟨B, -, here, -⟩ := (refine_stable d).1.exists_block small
    exact equivalent_of_block closed here (same.symm.trans here)
  · exact refine_coarse closed i small j small'

end Minimal
end Lalr.Lexer
