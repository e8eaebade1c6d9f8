import Lalr.Proofs.Lexer.Path
import Mathlib.Data.List.Perm.Subperm

/-! The states that a search along epsilon edges meets, and those that a byte leads to. -/
namespace Lalr.Lexer.Nfa

variable {nfa : Nfa} {i j : Nat} {seeds states targets : List Nat} {b : UInt8}

namespace Search

variable {s s' : Search} {n : Nat}

theorem mem_met_meet : j ∈ (s.meet i).met ↔ j = i ∨ j ∈ s.met := by
  unfold meet
  split
  · next old =>
    refine (or_iff_right_of_imp ?_).symm
    rintro rfl
    exact Std.TreeSet.contains_iff_mem.1 old
  · rw [Std.TreeSet.mem_insert, Std.compare_eq_iff_eq, eq_comm]

theorem mem_pending_meet : j ∈ (s.meet i).pending ↔ j ∈ s.pending ∨ j = i ∧ i ∉ s.met := by
  unfold meet
  split
  · next old =>
    have old := Std.TreeSet.contains_iff_mem.1 old
    simp [old]
  · next new =>
    have new : i ∉ s.met := fun old => new (Std.TreeSet.contains_iff_mem.2 old)
    simp [new, or_comm]

/-- The steps left: the pending states, and the states that have not been met. -/
def measure (n : Nat) (s : Search) : Nat := s.pending.length + (n - s.met.size)

theorem nodup_toList_met (s : Search) : s.met.toList.Nodup :=
  Std.TreeSet.distinct_toList.imp fun different same => different (Std.compare_eq_iff_eq.2 same)

theorem size_met_le (small : ∀ j ∈ s.met, j < n) : s.met.size ≤ n := by
  have subset : s.met.toList ⊆ List.range n := fun j member =>
    List.mem_range.2 (small j (Std.TreeSet.mem_toList.1 member))
  have := (s.nodup_toList_met.subperm subset).length_le
  rwa [Std.TreeSet.length_toList, List.length_range] at this

theorem measure_meet (small : ∀ j ∈ s.met, j < n) (here : i < n) :
    (s.meet i).measure n ≤ s.measure n := by
  have le : (s.meet i).met.size ≤ n := by
    apply size_met_le
    intro j member
    rcases mem_met_meet.1 member with rfl | old
    · exact here
    · exact small j old
  unfold meet at le ⊢
  split
  · exact Nat.le_refl _
  · next new =>
    rw [if_neg new, Std.TreeSet.size_insert, if_neg new] at le
    rw [measure, measure, Std.TreeSet.size_insert, if_neg new, List.length_cons]
    omega

structure Meets (n : Nat) (targets : List Nat) (s s' : Search) : Prop where
  met : ∀ j, j ∈ s'.met ↔ j ∈ targets ∨ j ∈ s.met
  kept : ∀ j ∈ s.pending, j ∈ s'.pending
  pending : ∀ j ∈ s'.pending, j ∈ s.pending ∨ j ∈ targets
  fresh : ∀ j ∈ s'.met, j ∈ s.met ∨ j ∈ s'.pending
  measure : s'.measure n ≤ s.measure n

theorem meets_foldl (small : ∀ j ∈ s.met, j < n) (places : ∀ j ∈ targets, j < n) :
    Meets n targets s (targets.foldl meet s) := by
  induction targets generalizing s with
  | nil =>
    exact ⟨by simp, fun _ => id, fun _ => .inl, fun _ => .inl, Nat.le_refl _⟩
  | cons i rest ih =>
    obtain ⟨here, others⟩ := List.forall_mem_cons.1 places
    have small' : ∀ j ∈ (s.meet i).met, j < n := by
      intro j member
      rcases mem_met_meet.1 member with rfl | old
      · exact here
      · exact small j old
    have later := ih small' others
    rw [List.foldl_cons]
    constructor
    case met =>
      intro j
      rw [later.met, mem_met_meet, List.mem_cons]
      exact or_left_comm.trans or_assoc.symm
    case kept => exact fun j member => later.kept j (mem_pending_meet.2 (.inl member))
    case pending =>
      intro j member
      rcases later.pending j member with before | inRest
      · rcases mem_pending_meet.1 before with old | ⟨rfl, -⟩
        · exact .inl old
        · exact .inr List.mem_cons_self
      · exact .inr (List.mem_cons_of_mem _ inRest)
    case fresh =>
      intro j member
      rcases later.fresh j member with before | waits
      · by_cases old : j ∈ s.met
        · exact .inl old
        · obtain rfl := (mem_met_meet.1 before).resolve_right old
          exact .inr (later.kept _ (mem_pending_meet.2 (.inr ⟨rfl, old⟩)))
      · exact .inr waits
    case measure => exact Nat.le_trans later.measure (measure_meet small here)

structure Valid (nfa : Nfa) (seeds : List Nat) (s : Search) : Prop where
  sound : ∀ j ∈ s.met, ∃ i ∈ seeds, nfa.Path i [] j
  seeds : ∀ i ∈ seeds, i ∈ s.met
  waiting : ∀ i ∈ s.pending, i ∈ s.met
  settled : ∀ i ∈ s.met, i ∈ s.pending ∨ ∀ k ∈ (nfa.state i).epsilons, k ∈ s.met
  small : ∀ i ∈ s.met, i < nfa.states.size

theorem step_valid (bounded : nfa.EpsilonBounded) (h : Valid nfa seeds s)
    (ongoing : s.more = true) : Valid nfa seeds (s.step nfa) ∧
      (s.step nfa).measure nfa.states.size < s.measure nfa.states.size := by
  unfold step
  split
  · next idle => simp [more, idle] at ongoing
  · next i pending waits =>
    have present : i ∈ s.met := h.waiting i (by simp [waits])
    have met := meets_foldl (s := { s with pending }) h.small (bounded i)
    generalize (nfa.state i).epsilons.foldl meet { s with pending } = s' at met ⊢
    have less := met.measure
    refine ⟨⟨?sound, fun j member => (met.met j).2 (.inr (h.seeds j member)), ?waiting, ?settled,
      ?small⟩, ?_⟩
    case sound =>
      intro j member
      rcases (met.met j).1 member with edge | old
      · obtain ⟨k, seed, path⟩ := h.sound i present
        exact ⟨k, seed, path.trans (.epsilon edge (.refl j))⟩
      · exact h.sound j old
    case waiting =>
      intro j member
      rcases met.pending j member with old | edge
      · exact (met.met j).2 (.inr (h.waiting j (by rw [waits]; exact .tail _ old)))
      · exact (met.met j).2 (.inl edge)
    case settled =>
      intro j member
      rcases met.fresh j member with old | waits'
      · by_cases current : j = i
        · subst current
          exact .inr fun k edge => (met.met k).2 (.inl edge)
        · rcases h.settled j old with waits' | settled
          · rw [waits] at waits'
            exact .inl (met.kept j ((List.mem_cons.1 waits').resolve_left current))
          · exact .inr fun k edge => (met.met k).2 (.inr (settled k edge))
      · exact .inl waits'
    case small =>
      intro j member
      rcases (met.met j).1 member with edge | old
      · exact bounded i j edge
      · exact h.small j old
    · apply Nat.lt_of_le_of_lt less
      rw [measure, measure, waits, List.length_cons]
      dsimp only
      omega

/-- A search without pending states has met what epsilon edges reach. -/
theorem Valid.mem_met (h : Valid nfa seeds s) (idle : s.pending = []) :
    j ∈ s.met ↔ ∃ i ∈ seeds, nfa.Path i [] j := by
  refine ⟨h.sound j, ?_⟩
  rintro ⟨i, seed, path⟩
  have present := h.seeds i seed
  clear seed
  obtain ⟨w, empty⟩ : ∃ w : List UInt8, [] = w := ⟨_, rfl⟩
  rw [empty] at path
  induction path with
  | refl => exact present
  | epsilon edge _ ih =>
    exact ih ((h.settled _ present).resolve_left (by simp [idle]) _ edge) empty
  | edge => cases empty

theorem initial_valid (places : ∀ i ∈ seeds, i < nfa.states.size) :
    Valid nfa seeds (seeds.foldl meet ⟨∅, []⟩) := by
  have met := meets_foldl (s := ⟨∅, []⟩) (n := nfa.states.size) (by simp) places
  generalize seeds.foldl meet ⟨∅, []⟩ = s at met
  have inSeeds (j : Nat) (member : j ∈ s.met) : j ∈ seeds :=
    ((met.met j).1 member).resolve_right (by simp)
  constructor
  case sound => exact fun j member => ⟨j, inSeeds j member, .refl j⟩
  case seeds => exact fun i member => (met.met i).2 (.inl member)
  case waiting =>
    intro i member
    exact (met.met i).2 (.inl ((met.pending i member).resolve_left List.not_mem_nil))
  case settled => exact fun i member => .inl ((met.fresh i member).resolve_left (by simp))
  case small => exact fun i member => places i (inSeeds i member)

/-- The turns allowed are enough. -/
theorem loop_valid (bounded : nfa.EpsilonBounded) (places : ∀ i ∈ seeds, i < nfa.states.size) :
    let last := iterate more (step nfa) nfa.states.size (seeds.foldl meet ⟨∅, []⟩)
    Valid nfa seeds last ∧ last.pending = [] := by
  have met := meets_foldl (s := ⟨∅, []⟩) (n := nfa.states.size) (by simp) places
  have enough : (seeds.foldl meet ⟨∅, []⟩).measure nfa.states.size ≤ nfa.states.size := by
    apply Nat.le_trans met.measure
    simp [measure]
  obtain ⟨valid, done⟩ := iterate_done (P := Valid nfa seeds) (measure nfa.states.size)
    (fun s h ongoing => step_valid bounded h ongoing) (initial_valid places) enough
  exact ⟨valid, by simpa [more] using done⟩

end Search

/-- The closure holds what epsilon edges reach. -/
theorem mem_epsilonClosure (bounded : nfa.EpsilonBounded)
    (places : ∀ i ∈ seeds, i < nfa.states.size) :
    j ∈ nfa.epsilonClosure seeds ↔ ∃ i ∈ seeds, nfa.Path i [] j := by
  obtain ⟨valid, idle⟩ := Search.loop_valid bounded places
  exact Std.TreeSet.mem_toList.trans (valid.mem_met idle)

theorem pairwise_epsilonClosure (nfa : Nfa) (seeds : List Nat) :
    (nfa.epsilonClosure seeds).Pairwise (· < ·) :=
  Std.TreeSet.ordered_toList.imp Nat.compare_eq_lt.1

theorem mem_move : j ∈ nfa.move states b ↔
    ∃ i ∈ states, ∃ label, (label, j) ∈ (nfa.state i).edges ∧ b ∈ label := by
  simp only [move, mem_sortedSet, List.mem_flatMap, List.mem_map, List.mem_filter, Prod.exists]
  constructor
  · rintro ⟨i, member, label, k, ⟨edge, inLabel⟩, rfl⟩
    exact ⟨i, member, label, edge, inLabel⟩
  · rintro ⟨i, member, label, edge, inLabel⟩
    exact ⟨i, member, label, j, ⟨edge, inLabel⟩, rfl⟩

end Lalr.Lexer.Nfa
