import Lalr.Proofs.Lookup.Subset
import Mathlib.Logic.Relation

/-! The search along epsilon edges, one state after the other. What has been met has been expanded
or is pending, and a state is pending once only, however many edges lead to it; so the search ends
on cycles too, and has then met what epsilon edges reach. -/
namespace Lalr.Lexer.Nfa

variable {nfa : Nfa} {i j : Nat} {seeds expanded : List Nat}

def EpsilonEdge (nfa : Nfa) (i j : Nat) : Prop := j ∈ (nfa.state i).epsilons

theorem path_nil_iff : nfa.Path i [] j ↔ Relation.ReflTransGen nfa.EpsilonEdge i j := by
  constructor
  · obtain ⟨w, empty⟩ : ∃ w : List UInt8, [] = w := ⟨_, rfl⟩
    rw [empty]
    intro path
    induction path with
    | refl => exact .refl
    | epsilon edge _ ih => exact .head edge (ih empty)
    | edge => cases empty
  · intro reaches
    induction reaches with
    | refl => exact .refl i
    | tail _ edge ih => exact ih.trans (.epsilon edge (.refl _))

namespace Search

variable {s : Search} {pending : List Nat}

/-- The search when the states `expanded` have been popped and their edges have been followed, in
this order. -/
inductive Expanded (nfa : Nfa) (seeds : List Nat) : List Nat → Search → Prop where
  | start : Expanded nfa seeds [] (seeds.foldl meet ⟨∅, []⟩)
  | next {expanded : List Nat} {i : Nat} {s : Search} {pending : List Nat} :
    Expanded nfa seeds expanded s → s.pending = i :: pending →
      Expanded nfa seeds (expanded ++ [i]) (s.step nfa)

structure Divided (expanded : List Nat) (s : Search) : Prop where
  met : ∀ i, i ∈ s.met ↔ i ∈ expanded ∨ i ∈ s.pending
  nodup : (expanded ++ s.pending).Nodup

namespace Divided

theorem meet (h : Divided expanded s) (i : Nat) : Divided expanded (s.meet i) := by
  refine ⟨fun j => ?_, ?_⟩
  · rw [mem_met_meet, mem_pending_meet, h.met]
    have := h.met i
    grind
  · unfold Search.meet
    split
    · exact h.nodup
    · next new =>
      have fresh : i ∉ expanded ++ s.pending := fun old =>
        new (Std.TreeSet.contains_iff_mem.2 ((h.met i).2 (List.mem_append.1 old)))
      exact List.nodup_middle.2 (List.nodup_cons.2 ⟨fresh, h.nodup⟩)

theorem foldl_meet (h : Divided expanded s) (targets : List Nat) :
    Divided expanded (targets.foldl Search.meet s) := by
  induction targets generalizing s with
  | nil => exact h
  | cons i rest ih => exact ih (h.meet i)

theorem pop (h : Divided expanded s) (waits : s.pending = i :: pending) :
    Divided (expanded ++ [i]) { s with pending } := by
  have nodup := h.nodup
  rw [waits, List.append_cons] at nodup
  refine ⟨fun j => ?_, nodup⟩
  rw [h.met, waits, List.mem_append, List.mem_singleton, List.mem_cons, or_assoc]

theorem step (h : Divided expanded s) (waits : s.pending = i :: pending) :
    Divided (expanded ++ [i]) (s.step nfa) := by
  rw [Search.step, waits]
  exact (h.pop waits).foldl_meet _

theorem perm (h : Divided expanded s) : (expanded ++ s.pending).Perm s.met.toList := by
  refine (List.perm_ext_iff_of_nodup h.nodup s.nodup_toList_met).2 fun i => ?_
  rw [List.mem_append, Std.TreeSet.mem_toList, h.met]

/-- The edges of an expanded state have been followed. -/
theorem followed (h : Divided expanded s) (valid : Valid nfa seeds s) (member : i ∈ expanded)
    (edge : nfa.EpsilonEdge i j) : j ∈ s.met := by
  have gone : i ∉ s.pending := fun waits => (List.nodup_append.1 h.nodup).2.2 i member i waits rfl
  exact (valid.settled i ((h.met i).2 (.inl member))).resolve_left gone j edge

/-- The turns made and the states that wait are at most as many as there are states. -/
theorem length_le (h : Divided expanded s) (valid : Valid nfa seeds s) :
    expanded.length + s.pending.length ≤ nfa.states.size := by
  rw [← List.length_append, h.perm.length_eq, Std.TreeSet.length_toList]
  exact size_met_le valid.small

end Divided

theorem initial_divided (seeds : List Nat) : Divided [] (seeds.foldl meet ⟨∅, []⟩) :=
  Divided.foldl_meet ⟨by simp, List.nodup_nil⟩ seeds

namespace Expanded

/-- What every turn keeps. -/
theorem invariant (bounded : nfa.EpsilonBounded) (places : ∀ i ∈ seeds, i < nfa.states.size)
    (h : Expanded nfa seeds expanded s) : Valid nfa seeds s ∧ Divided expanded s := by
  induction h with
  | start => exact ⟨initial_valid places, initial_divided seeds⟩
  | next _ waits ih =>
    obtain ⟨valid, divided⟩ := ih
    exact ⟨(step_valid bounded valid (by simp [more, waits])).1, divided.step waits⟩

/-- The loop of the closure is such a search. -/
theorem exists_loop (nfa : Nfa) (seeds : List Nat) (fuel : Nat) : ∃ expanded,
    Expanded nfa seeds expanded (iterate more (step nfa) fuel (seeds.foldl meet ⟨∅, []⟩)) := by
  have keep (s : Search) (h : ∃ expanded, Expanded nfa seeds expanded s) (ongoing : s.more = true) :
      ∃ expanded, Expanded nfa seeds expanded (s.step nfa) := by
    obtain ⟨expanded, before⟩ := h
    cases waits : s.pending with
    | nil => simp [more, waits] at ongoing
    | cons i pending => exact ⟨expanded ++ [i], before.next waits⟩
  exact iterate_invariant keep fuel _ ⟨[], start⟩

end Expanded

/-- The states met, read off their marks. -/
theorem toList_met_eq {n : Nat} (small : ∀ i ∈ s.met, i < n) :
    s.met.toList = (List.range n).filter s.met.contains := by
  refine eq_of_pairwise_lt Std.TreeSet.ordered_toList ?_ fun i => ?_
  · exact (List.pairwise_lt_range.filter _).imp Nat.compare_eq_lt.2
  · rw [Std.TreeSet.mem_toList, List.mem_filter, List.mem_range, Std.TreeSet.contains_iff_mem]
    exact (and_iff_right_of_imp (small i)).symm

end Search

/-- Whenever a state is taken up, what has been met has been expanded before or is pending, each
state once; the edges of the expanded states have been followed, they are no more than there are
states, and the turn finds what it looks up. The search ends with nothing pending and with all that
is returned expanded. This is, in ascending order, what epsilon edges reach from the seeds. -/
theorem epsilonClosure_exact (bounded : nfa.EpsilonBounded)
    (places : ∀ i ∈ seeds, i < nfa.states.size) :
    let closure := nfa.epsilonClosure seeds
    (∀ expanded s, Search.Expanded nfa seeds expanded s →
      s.Divided expanded ∧ (∀ i ∈ expanded, ∀ j, nfa.EpsilonEdge i j → j ∈ s.met) ∧
        expanded.length + s.pending.length ≤ nfa.states.size ∧
        (s.more = true → s.step? nfa = some (s.step nfa))) ∧
    (∃ expanded last, Search.Expanded nfa seeds expanded last ∧ last.pending = [] ∧
      closure = (List.range nfa.states.size).filter last.met.contains ∧ expanded.Perm closure) ∧
    nfa.epsilonClosure? seeds = some closure ∧ closure.Pairwise (· < ·) ∧
    ∀ j, j ∈ closure ↔ ∃ i ∈ seeds, Relation.ReflTransGen nfa.EpsilonEdge i j := by
  intro closure
  refine ⟨fun expanded s search => ?_, ?_, epsilonClosure?_eq bounded places,
    nfa.pairwise_epsilonClosure seeds, fun j => ?_⟩
  · obtain ⟨valid, divided⟩ := search.invariant bounded places
    exact ⟨divided, fun i member j => divided.followed valid member, divided.length_le valid,
      fun _ => valid.step?_eq bounded⟩
  · obtain ⟨expanded, search⟩ := Search.Expanded.exists_loop nfa seeds nfa.states.size
    obtain ⟨valid, divided⟩ := search.invariant bounded places
    have idle := (Search.loop_valid bounded places).2
    have perm := divided.perm
    rw [idle, List.append_nil] at perm
    exact ⟨expanded, _, search, idle, Search.toList_met_eq valid.small, perm⟩
  · rw [mem_epsilonClosure bounded places]
    simp only [path_nil_iff]

instance (nfa : Nfa) : Decidable nfa.EpsilonBounded :=
  decidable_of_iff (∀ s ∈ nfa.states.toList, ∀ k ∈ s.epsilons, k < nfa.states.size)
    (forall_state_iff (by simp)).symm

/-- State 0 leads to itself and twice to state 2, which is on a cycle with it; states 1 and 3 lead
there. The edge with a byte leads nowhere. -/
def knotted : Nfa where
  states := #[
    { epsilons := [2, 0, 2] },
    { epsilons := [4] },
    { edges := [(.singleton 97, 9)], epsilons := [4] },
    { epsilons := [3, 1] },
    { epsilons := [0] }]

theorem epsilonClosure_exact_knotted : knotted.EpsilonBounded ∧
    (∀ i ∈ [4, 0, 4], i < knotted.states.size) ∧ knotted.epsilonClosure [4, 0, 4] = [0, 2, 4] ∧
    (∃ expanded last, Search.Expanded knotted [4, 0, 4] expanded last ∧ last.pending = [] ∧
      expanded.Perm [0, 2, 4]) ∧
    ¬∃ i ∈ [4, 0, 4], Relation.ReflTransGen knotted.EpsilonEdge i 3 := by
  have bounded : knotted.EpsilonBounded := by decide
  have places : ∀ i ∈ [4, 0, 4], i < knotted.states.size := by decide
  have closure : knotted.epsilonClosure [4, 0, 4] = [0, 2, 4] := by decide +kernel
  obtain ⟨-, ⟨expanded, last, search, idle, -, perm⟩, -, -, reaches⟩ :=
    epsilonClosure_exact bounded places
  rw [closure] at perm
  refine ⟨bounded, places, closure, ⟨expanded, last, search, idle, perm⟩, fun reached => ?_⟩
  have := (reaches 3).2 reached
  simp [closure] at this

end Lalr.Lexer.Nfa
