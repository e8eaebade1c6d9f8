import Lalr.Lexer.Subset
import Lalr.Proofs.Lexer.Classes
import Lalr.Proofs.Lexer.LongestMatch
import Lalr.Proofs.Lexer.Reach
import Lalr.Proofs.Lexer.Tokens
import Mathlib.Data.List.Sort
import Mathlib.Data.List.Sublists

/-! The subset construction: its states stand for the sets of states that words lead to, and the
number of these sets bounds its steps. -/
namespace Lalr.Lexer

open Subset

namespace Subset.Construction

variable {nfa : Nfa} {classes : ByteClasses} {c c' c'' : Construction} {i j k : Nat}
  {set : List Nat} {s s' : DfaState}

def IsSet (nfa : Nfa) (set : List Nat) : Prop :=
  set.Pairwise (· < ·) ∧ ∀ i ∈ set, i < nfa.states.size

theorem length_le_of_isSet (nfa : Nfa) {sets : List (List Nat)} (nodup : sets.Nodup)
    (all : ∀ set ∈ sets, IsSet nfa set) : sets.length ≤ 2 ^ nfa.states.size := by
  have subset : sets ⊆ (List.range nfa.states.size).sublists := by
    intro set member
    obtain ⟨sorted, small⟩ := all set member
    refine List.mem_sublists.2 (List.sublist_of_subperm_of_pairwise ?_ sorted
      List.pairwise_lt_range)
    have different : set.Nodup := sorted.imp fun less => Nat.ne_of_lt less
    exact different.subperm fun i inSet => List.mem_range.2 (small i inSet)
  have := (nodup.subperm subset).length_le
  rwa [List.length_sublists, List.length_range] at this

def setOf (c : Construction) (i : Nat) : Option (List Nat) := c.states[i]?.map (·.nfaStates)

/-- The transition on the class `k` is there if there is a state to go to. -/
def Settled (nfa : Nfa) (classes : ByteClasses) (s : DfaState) (k : Nat) : Prop :=
  ∀ b, classes.representative k = some b → nfa.move s.nfaStates b ≠ [] → k ∈ s.transitions.keys

def Leads (nfa : Nfa) (classes : ByteClasses) (c : Construction) (s : DfaState) (k j : Nat) :
    Prop :=
  ∃ b, classes.representative k = some b ∧ nfa.move s.nfaStates b ≠ [] ∧
    c.setOf j = some (nfa.epsilonClosure (nfa.move s.nfaStates b))

structure Sound (nfa : Nfa) (classes : ByteClasses) (c : Construction) : Prop where
  numbers : ∀ set i, c.numbers[set]? = some i ↔ c.setOf i = some set
  sets : ∀ (i : Nat) s, c.states[i]? = some s → IsSet nfa s.nfaStates
  accept : ∀ (i : Nat) s, c.states[i]? = some s →
    s.accept = (nfa.resolveAccept s.nfaStates).map (·.terminal)
  pending : ∀ i ∈ c.pending.toList, i < c.states.size
  transitions : ∀ (i : Nat) s k j, c.states[i]? = some s → s.transitions.get? k = some j →
    Leads nfa classes c s k j

/-- The steps left: the pending states, and the sets that have not been met. -/
def measure (nfa : Nfa) (c : Construction) : Nat :=
  c.pending.toList.length + (2 ^ nfa.states.size - c.states.size)

structure Grows (nfa : Nfa) (c c' : Construction) : Prop where
  states : ∀ (i : Nat) s, c.states[i]? = some s → ∃ s', c'.states[i]? = some s' ∧
    s'.nfaStates = s.nfaStates ∧ s.transitions.keys ⊆ s'.transitions.keys
  fresh : ∀ (i : Nat) s', c'.states[i]? = some s' → (∃ s, c.states[i]? = some s) ∨ i ∈ c'.pending.toList
  kept : ∀ i ∈ c.pending.toList, i ∈ c'.pending.toList
  measure : c'.measure nfa ≤ c.measure nfa

theorem Grows.refl (nfa : Nfa) (c : Construction) : Grows nfa c c :=
  ⟨fun _ s there => ⟨s, there, rfl, List.Subset.refl _⟩, fun _ s there => .inl ⟨s, there⟩,
    fun _ => id, Nat.le_refl _⟩

theorem Grows.trans (first : Grows nfa c c') (second : Grows nfa c' c'') : Grows nfa c c'' where
  states i s there := by
    obtain ⟨s', there', same, keys⟩ := first.states i s there
    obtain ⟨s'', there'', same', keys'⟩ := second.states i s' there'
    exact ⟨s'', there'', same'.trans same, List.Subset.trans keys keys'⟩
  fresh i s there := by
    rcases second.fresh i s there with ⟨s', there'⟩ | waits
    · exact (first.fresh i s' there').imp_right (second.kept i)
    · exact .inr waits
  kept i waits := second.kept i (first.kept i waits)
  measure := Nat.le_trans second.measure first.measure

theorem Grows.setOf (h : Grows nfa c c') (there : c.setOf i = some set) :
    c'.setOf i = some set := by
  obtain ⟨s, state, rfl⟩ := Option.map_eq_some_iff.1 there
  obtain ⟨s', state', same, -⟩ := h.states i s state
  exact Option.map_eq_some_iff.2 ⟨s', state', same⟩

/-- There are at most as many states as sets. -/
theorem Sound.size_le (h : Sound nfa classes c) : c.states.size ≤ 2 ^ nfa.states.size := by
  have nodup : (c.states.toList.map (·.nfaStates)).Nodup := by
    rw [List.nodup_iff_pairwise_ne, List.pairwise_iff_getElem]
    intro i j hi hj less same
    have at_i : c.setOf i = some (c.states.toList.map (·.nfaStates))[i] := by
      rw [Construction.setOf, ← Array.getElem?_toList, ← List.getElem?_map,
        List.getElem?_eq_getElem hi]
    have at_j : c.setOf j = some (c.states.toList.map (·.nfaStates))[i] := by
      rw [Construction.setOf, ← Array.getElem?_toList, ← List.getElem?_map,
        List.getElem?_eq_getElem hj, same]
    have := ((h.numbers _ i).2 at_i).symm.trans ((h.numbers _ j).2 at_j)
    exact Nat.ne_of_lt less (Option.some.inj this)
  have := length_le_of_isSet nfa nodup fun set member => by
    obtain ⟨s, inStates, rfl⟩ := List.mem_map.1 member
    obtain ⟨i, there⟩ := List.getElem?_of_mem inStates
    exact h.sets i s (by rwa [Array.getElem?_toList] at there)
  simpa using this

def extend (nfa : Nfa) (c : Construction) (set : List Nat) : Construction where
  states := c.states.push ⟨set, ∅, (nfa.resolveAccept set).map (·.terminal)⟩
  numbers := c.numbers.insert set c.states.size
  pending := c.pending.push c.states.size

theorem state_extend : (c.extend nfa set).states[i]? = if i = c.states.size then
    some ⟨set, ∅, (nfa.resolveAccept set).map (·.terminal)⟩ else c.states[i]? := by
  simp only [extend, Array.getElem?_push]

theorem setOf_extend :
    (c.extend nfa set).setOf i = if i = c.states.size then some set else c.setOf i := by
  rw [setOf, state_extend]
  split <;> rfl

theorem setOf_size : c.setOf c.states.size = none := by
  simp only [setOf, Array.getElem?_eq_none (Nat.le_refl _), Option.map_none]

theorem state_extend_of_state (there : c.states[i]? = some s) :
    (c.extend nfa set).states[i]? = some s := by
  simp only [state_extend, if_neg (Nat.ne_of_lt (Array.getElem?_eq_some_iff.1 there).1), there]

theorem mem_pending_extend :
    i ∈ (c.extend nfa set).pending.toList ↔ i = c.states.size ∨ i ∈ c.pending.toList :=
  WorkList.mem_push

theorem sound_extend (h : Sound nfa classes c) (isSet : IsSet nfa set)
    (unknown : c.numbers[set]? = none) : Sound nfa classes (c.extend nfa set) := by
  have absent (i : Nat) : c.setOf i ≠ some set := by
    intro there
    rw [(h.numbers set i).2 there] at unknown
    cases unknown
  constructor
  case numbers =>
    intro set' i
    have number : (c.extend nfa set).numbers[set']? =
        if set = set' then some c.states.size else c.numbers[set']? := by
      rw [extend, Std.TreeMap.getElem?_insert]
      simp only [Std.compare_eq_iff_eq]
    rw [number, setOf_extend]
    by_cases new : set = set' <;> by_cases last : i = c.states.size
    · simp [new, last]
    · subst new
      simp [absent i, last, eq_comm]
    · rw [if_neg new, if_pos last, h.numbers, last, setOf_size]
      simp [new]
    · simp only [if_neg new, if_neg last, h.numbers]
  case sets =>
    intro i s there
    rw [state_extend] at there
    split at there
    · cases there
      exact isSet
    · exact h.sets i s there
  case accept =>
    intro i s there
    rw [state_extend] at there
    split at there
    · cases there
      rfl
    · exact h.accept i s there
  case pending =>
    intro i waits
    rw [extend, Array.size_push]
    rcases mem_pending_extend.1 waits with rfl | old
    · exact Nat.lt_succ_self _
    · exact Nat.lt_succ_of_lt (h.pending i old)
  case transitions =>
    intro i s k j there leads
    rw [state_extend] at there
    split at there
    · cases there
      cases leads
    · obtain ⟨b, represents, moves, target⟩ := h.transitions i s k j there leads
      refine ⟨b, represents, moves, ?_⟩
      obtain ⟨s', state, same⟩ := Option.map_eq_some_iff.1 target
      exact Option.map_eq_some_iff.2 ⟨s', state_extend_of_state state, same⟩

theorem grows_extend (h : Sound nfa classes (c.extend nfa set)) : Grows nfa c (c.extend nfa set) where
  states _ s there := ⟨s, state_extend_of_state there, rfl, List.Subset.refl _⟩
  fresh i s there := by
    rw [state_extend] at there
    split at there
    · next last => exact .inr (mem_pending_extend.2 (.inl last))
    · exact .inl ⟨s, there⟩
  kept _ old := mem_pending_extend.2 (.inr old)
  measure := by
    have le := h.size_le
    have length := WorkList.length_push_le c.pending c.states.size
    rw [extend, Array.size_push] at le
    rw [extend, measure, measure, Array.size_push]
    dsimp only
    omega

/-- A set that is looked up has a number and a state that stands for it. -/
theorem intern_spec (h : Sound nfa classes c) (isSet : IsSet nfa set) :
    Sound nfa classes (c.intern nfa set).2 ∧ Grows nfa c (c.intern nfa set).2 ∧
      (c.intern nfa set).2.setOf (c.intern nfa set).1 = some set := by
  cases known : c.numbers[set]? with
  | some i =>
    have shape : c.intern nfa set = (i, c) := by
      simp only [intern, known]
    rw [shape]
    exact ⟨h, .refl nfa c, (h.numbers set i).1 known⟩
  | none =>
    have shape : c.intern nfa set = (c.states.size, c.extend nfa set) := by
      rw [intern, known]
      rfl
    have sound := sound_extend h isSet known
    rw [shape]
    exact ⟨sound, grows_extend sound, by rw [setOf_extend, if_pos rfl]⟩

theorem isSet_epsilonClosure (bounded : nfa.Bounded) {seeds : List Nat}
    (places : ∀ i ∈ seeds, i < nfa.states.size) : IsSet nfa (nfa.epsilonClosure seeds) := by
  refine ⟨nfa.pairwise_epsilonClosure seeds, fun j member => ?_⟩
  obtain ⟨i, seed, path⟩ := (Nfa.mem_epsilonClosure bounded.epsilons places).1 member
  exact path.lt bounded (places i seed)

theorem lt_of_mem_move (bounded : nfa.Bounded) {b : UInt8} (member : j ∈ nfa.move set b) :
    j < nfa.states.size := by
  obtain ⟨i, -, label, edge, -⟩ := Nfa.mem_move.1 member
  exact (bounded i).2 label j edge

def link (c : Construction) (i k j : Nat) : Construction :=
  { c with
    states := c.states.modify i fun s => { s with transitions := s.transitions.insert k j } }

theorem state_link {l : Nat} : (c.link i k j).states[l]? = if i = l then
    c.states[l]?.map fun s => { s with transitions := s.transitions.insert k j }
      else c.states[l]? := by
  simp only [link, Array.getElem?_modify]

theorem setOf_link {l : Nat} : (c.link i k j).setOf l = c.setOf l := by
  rw [setOf, state_link, setOf]
  split
  · rw [Option.map_map]
    rfl
  · rfl

/-- The states of the linked construction are the old ones but for their transitions. -/
theorem exists_of_state_link {l : Nat} (there : (c.link i k j).states[l]? = some s') :
    ∃ s, c.states[l]? = some s ∧ s'.nfaStates = s.nfaStates ∧ s'.accept = s.accept ∧
      ((i = l ∧ s'.transitions = s.transitions.insert k j) ∨ s'.transitions = s.transitions) := by
  rw [state_link] at there
  split at there
  · next same =>
    obtain ⟨s, state, rfl⟩ := Option.map_eq_some_iff.1 there
    exact ⟨s, state, rfl, rfl, .inl ⟨same, rfl⟩⟩
  · exact ⟨s', there, rfl, rfl, .inr rfl⟩

theorem sound_link (h : Sound nfa classes c) (here : c.states[i]? = some s)
    (leads : Leads nfa classes c s k j) : Sound nfa classes (c.link i k j) := by
  constructor
  case numbers =>
    intro set i'
    rw [setOf_link]
    exact h.numbers set i'
  case sets =>
    intro l s' there
    obtain ⟨s, state, same, -⟩ := exists_of_state_link there
    exact same ▸ h.sets l s state
  case accept =>
    intro l s' there
    obtain ⟨s, state, same, accept, -⟩ := exists_of_state_link there
    rw [accept, same]
    exact h.accept l s state
  case pending =>
    intro l waits
    rw [link, Array.size_modify]
    exact h.pending l waits
  case transitions =>
    intro l s' k' j' there entry
    obtain ⟨t, state, same, -, change⟩ := exists_of_state_link there
    have keep {k' j' : Nat} (old : Leads nfa classes c t k' j') :
        Leads nfa classes (c.link i k j) s' k' j' := by
      obtain ⟨b, represents, moves, target⟩ := old
      exact ⟨b, represents, same ▸ moves, by rw [setOf_link, same, target]⟩
    rcases change with ⟨rfl, change⟩ | change
    · obtain rfl : t = s := Option.some.inj (state.symm.trans here)
      rw [change, OrderedMap.get?_insert] at entry
      split at entry
      · next sameClass =>
        cases entry
        rw [sameClass]
        exact keep leads
      · exact keep (h.transitions i t k' j' state entry)
    · rw [change] at entry
      exact keep (h.transitions l t k' j' state entry)

theorem grows_link (nfa : Nfa) (c : Construction) (i k j : Nat) :
    Grows nfa c (c.link i k j) where
  states l s there := by
    rw [state_link, there]
    split
    · exact ⟨_, rfl, rfl, fun k' old => OrderedMap.mem_keys_insert.2 (.inr old)⟩
    · exact ⟨s, rfl, rfl, List.Subset.refl _⟩
  fresh l s there := by
    obtain ⟨t, state, -⟩ := exists_of_state_link there
    exact .inl ⟨t, state⟩
  kept _ := id
  measure := by
    rw [measure, measure, link, Array.size_modify]

theorem Settled.mono (h : Settled nfa classes s k) (same : s'.nfaStates = s.nfaStates)
    (keys : s.transitions.keys ⊆ s'.transitions.keys) : Settled nfa classes s' k := by
  intro b represents moves
  rw [same] at moves
  exact keys (h b represents moves)

theorem addTransition_of_move {b : UInt8} (here : c.states[i]? = some s)
    (represents : classes.representative k = some b) (moves : nfa.move s.nfaStates b ≠ []) :
    addTransition nfa classes i c k =
      (c.intern nfa (nfa.epsilonClosure (nfa.move s.nfaStates b))).2.link i k
        (c.intern nfa (nfa.epsilonClosure (nfa.move s.nfaStates b))).1 := by
  rw [addTransition, represents, here]
  dsimp only [Option.getD_some]
  split
  · next idle => exact absurd idle moves
  · rfl

theorem addTransition_of_idle (here : c.states[i]? = some s)
    (idle : ¬ ∃ b, classes.representative k = some b ∧ nfa.move s.nfaStates b ≠ []) :
    addTransition nfa classes i c k = c := by
  rw [addTransition]
  split
  · rfl
  · next b represents =>
    rw [here, Option.getD_some]
    split
    · rfl
    · next moved => exact absurd ⟨b, represents, moved⟩ idle

/-- Adding a transition settles it. -/
theorem addTransition_spec (bounded : nfa.Bounded) (h : Sound nfa classes c)
    (here : c.states[i]? = some s) (k : Nat) :
    Sound nfa classes (addTransition nfa classes i c k) ∧
      Grows nfa c (addTransition nfa classes i c k) ∧
      ∀ s', (addTransition nfa classes i c k).states[i]? = some s' →
        Settled nfa classes s' k := by
  by_cases moves : ∃ b, classes.representative k = some b ∧ nfa.move s.nfaStates b ≠ []
  · obtain ⟨b, represents, moves⟩ := moves
    have isSet : IsSet nfa (nfa.epsilonClosure (nfa.move s.nfaStates b)) :=
      isSet_epsilonClosure bounded fun j => lt_of_mem_move bounded
    obtain ⟨sound, grows, number⟩ := intern_spec h isSet
    rw [addTransition_of_move here represents moves]
    generalize (c.intern nfa (nfa.epsilonClosure (nfa.move s.nfaStates b))) = interned at *
    obtain ⟨j, c'⟩ := interned
    obtain ⟨t, there, same, -⟩ := grows.states i s here
    rw [← same] at moves number
    refine ⟨sound_link sound there ⟨b, represents, moves, number⟩,
      grows.trans (grows_link nfa c' i k j), fun s' there' b' _ _ => ?_⟩
    dsimp only at there there'
    rw [state_link, if_pos rfl, there] at there'
    cases there'
    exact OrderedMap.mem_keys_insert.2 (.inl rfl)
  · rw [addTransition_of_idle here moves]
    refine ⟨h, .refl nfa c, fun s' there b represents moves' => ?_⟩
    cases here.symm.trans there
    exact absurd ⟨b, represents, moves'⟩ moves

/-- What adding the transitions on several classes does to a state. -/
theorem addTransitions_spec (bounded : nfa.Bounded) (h : Sound nfa classes c)
    (here : c.states[i]? = some s) (ks : List Nat) :
    Sound nfa classes (ks.foldl (addTransition nfa classes i) c) ∧
      Grows nfa c (ks.foldl (addTransition nfa classes i) c) ∧
      ∀ s', (ks.foldl (addTransition nfa classes i) c).states[i]? = some s' →
        ∀ k ∈ ks, Settled nfa classes s' k := by
  induction ks generalizing c s with
  | nil => exact ⟨h, .refl nfa c, by simp⟩
  | cons k rest ih =>
    obtain ⟨sound, grows, settled⟩ := addTransition_spec bounded h here k
    obtain ⟨t, there, -, -⟩ := grows.states i s here
    obtain ⟨sound', grows', settled'⟩ := ih sound there
    refine ⟨sound', grows.trans grows', fun s' there' => ?_⟩
    refine List.forall_mem_cons.2 ⟨?_, settled' s' there'⟩
    obtain ⟨u, state, same, keys⟩ := grows'.states i t there
    obtain rfl : u = s' := Option.some.inj (state.symm.trans there')
    exact (settled t there).mono same keys

structure Valid (nfa : Nfa) (classes : ByteClasses) (c : Construction) : Prop where
  sound : Sound nfa classes c
  start : c.setOf 0 = some (nfa.epsilonClosure nfa.starts)
  settled : ∀ (i : Nat) s, c.states[i]? = some s →
    i ∈ c.pending.toList ∨ ∀ k ∈ classes.toList, Settled nfa classes s k

theorem step_valid (bounded : nfa.Bounded) (h : Valid nfa classes c) (ongoing : c.more = true) :
    Valid nfa classes (c.step nfa classes) ∧ (c.step nfa classes).measure nfa < c.measure nfa := by
  obtain ⟨i, pending, popped, waits⟩ := WorkList.exists_pop ongoing
  rw [step, popped]
  dsimp only
  have small := h.sound.pending i (by simp [waits])
  have sound : Sound nfa classes { c with pending } :=
    { h.sound with
      pending := fun j member => h.sound.pending j (by rw [waits]; exact .tail _ member) }
  obtain ⟨sound', grows, settled⟩ := addTransitions_spec bounded sound
    (Array.getElem?_eq_getElem small) classes.toList
  refine ⟨⟨sound', grows.setOf h.start, fun j s' there => ?_⟩, ?_⟩
  · by_cases current : j = i
    · subst current
      exact .inr (settled s' there)
    · rcases grows.fresh j s' there with ⟨s, state⟩ | waits'
      · rcases h.settled j s state with waits' | settled
        · rw [waits] at waits'
          exact .inl (grows.kept j ((List.mem_cons.1 waits').resolve_left current))
        · obtain ⟨t, there', same, keys⟩ := grows.states j s state
          obtain rfl : t = s' := Option.some.inj (there'.symm.trans there)
          exact .inr fun k member => (settled k member).mono same keys
      · exact .inl waits'
  · apply Nat.lt_of_le_of_lt grows.measure
    rw [measure, measure, waits, List.length_cons]
    dsimp only
    omega

theorem initial_valid (bounded : nfa.Bounded) (places : ∀ i ∈ nfa.starts, i < nfa.states.size)
    (classes : ByteClasses) : Valid nfa classes (initial nfa) ∧
      (initial nfa).measure nfa ≤ 2 ^ nfa.states.size := by
  obtain ⟨c, eq⟩ : ∃ c : Construction, ⟨#[], ∅, .empty⟩ = c := ⟨_, rfl⟩
  have noState (i : Nat) : c.states[i]? = none := by
    subst eq
    rfl
  have sound : Sound nfa classes c := by
    constructor
    case numbers =>
      intro set i
      rw [setOf, noState]
      subst eq
      simp
    case pending =>
      subst eq
      exact nofun
    all_goals
      intro i s
      rw [noState]
      exact nofun
  obtain ⟨sound', grows, number⟩ :=
    intern_spec sound (isSet_epsilonClosure bounded places)
  have first : (c.intern nfa (nfa.epsilonClosure nfa.starts)).1 = 0 := by
    rw [intern]
    subst eq
    rfl
  rw [first] at number
  rw [initial, eq]
  refine ⟨⟨sound', number, fun i s there => .inl ?_⟩, ?_⟩
  · apply (grows.fresh i s there).resolve_left
    rw [noState]
    exact nofun
  · apply Nat.le_trans grows.measure
    subst eq
    simp [measure]

end Subset.Construction

namespace Nfa

variable {nfa : Nfa} {i j : Nat} {b : UInt8} {w : List UInt8} {set : List Nat}

open Subset.Construction

/-- The steps allowed are enough. -/
theorem toDfa_valid (bounded : nfa.Bounded) (places : ∀ i ∈ nfa.starts, i < nfa.states.size) :
    ∃ c : Subset.Construction, nfa.toDfa = ⟨ByteClasses.compute nfa, c.states⟩ ∧
      Valid nfa (ByteClasses.compute nfa) c ∧ c.pending.toList = [] := by
  obtain ⟨start, enough⟩ := initial_valid bounded places (ByteClasses.compute nfa)
  obtain ⟨valid, done⟩ := iterate_done (P := Valid nfa (ByteClasses.compute nfa)) (measure nfa)
    (fun c h ongoing => step_valid bounded h ongoing) start enough
  refine ⟨_, rfl, valid, WorkList.isEmpty_iff.1 ?_⟩
  simpa [more] using done

/-- Transitions are on classes of bytes and lead to states. -/
theorem transition_toDfa (bounded : nfa.Bounded) (places : ∀ i ∈ nfa.starts, i < nfa.states.size)
    {k : Nat} (leads : (nfa.toDfa.state i).transitions.get? k = some j) :
    (∃ b, (ByteClasses.compute nfa).get b = k) ∧ j < nfa.toDfa.states.size := by
  obtain ⟨c, eq, valid, -⟩ := toDfa_valid bounded places
  rw [eq, Dfa.state] at leads
  cases there : c.states[i]? with
  | none =>
    rw [there] at leads
    cases leads
  | some s =>
    rw [there, Option.getD_some] at leads
    obtain ⟨b, represents, -, target⟩ := valid.sound.transitions i s k j there leads
    obtain ⟨s', there', -⟩ := Option.map_eq_some_iff.1 target
    rw [eq]
    exact ⟨⟨b, by simpa using List.find?_some represents⟩,
      (Array.getElem?_eq_some_iff.1 there').1⟩

def Reached (nfa : Nfa) (w : List UInt8) (set : List Nat) : Prop :=
  ∀ j, j ∈ set ↔ ∃ i ∈ nfa.starts, nfa.Path i w j

/-- Another byte leads to the closure of what it leads to from the set. -/
theorem Reached.snoc (h : nfa.Reached w set) (bounded : nfa.Bounded) (b : UInt8) :
    nfa.Reached (w ++ [b]) (nfa.epsilonClosure (nfa.move set b)) := by
  intro j
  rw [mem_epsilonClosure bounded.epsilons fun j => lt_of_mem_move bounded]
  constructor
  · rintro ⟨l, member, last⟩
    obtain ⟨k, inSet, label, edge, inLabel⟩ := mem_move.1 member
    obtain ⟨i, start, path⟩ := (h k).1 inSet
    exact ⟨i, start, path.trans (.edge edge inLabel last)⟩
  · rintro ⟨i, start, path⟩
    obtain ⟨k, first, second⟩ := path_append_iff.1 path
    obtain ⟨k', l, label, idle, edge, inLabel, last⟩ := path_singleton_iff.1 second
    have inSet : k' ∈ set := (h k').2 ⟨i, start, by simpa using first.trans idle⟩
    exact ⟨l, mem_move.2 ⟨k', inSet, label, edge, inLabel⟩, last⟩

/-- Where no edge has the byte, nothing is reached. -/
theorem Reached.stuck (h : nfa.Reached w set) (bounded : nfa.Bounded)
    (idle : nfa.move set b = []) : nfa.Reached (w ++ [b]) [] := by
  intro j
  have reached := h.snoc bounded b j
  rw [idle, mem_epsilonClosure bounded.epsilons (by simp)] at reached
  rw [← reached]
  simp

variable {c : Subset.Construction}

/-- A finished construction moves along all transitions. -/
theorem next_of_valid (h : Valid nfa (ByteClasses.compute nfa) c) (done : c.pending.toList = [])
    (here : c.setOf i = some set) (b : UInt8) :
    (∀ j, Dfa.next ⟨ByteClasses.compute nfa, c.states⟩ i b = some j →
      c.setOf j = some (nfa.epsilonClosure (nfa.move set b))) ∧
    (Dfa.next ⟨ByteClasses.compute nfa, c.states⟩ i b = none → nfa.move set b = []) := by
  obtain ⟨s, state, rfl⟩ := Option.map_eq_some_iff.1 here
  obtain ⟨r, represents, same⟩ := ByteClasses.exists_representative nfa b
  rw [Dfa.next, Dfa.state, state, Option.getD_some]
  constructor
  · intro j leads
    obtain ⟨r', represents', -, target⟩ := h.sound.transitions i s _ j state leads
    cases represents.symm.trans represents'
    simp only [target, same]
  · intro absent
    have settled := (h.settled i s state).resolve_left (by simp [done]) _
      (ByteClasses.get_mem_toList nfa b)
    by_contra moves
    rw [← same] at moves
    exact OrderedMap.get?_eq_none_iff.1 absent (settled r represents moves)

/-- The state that a word leads to stands for what the word reaches. -/
theorem run_of_valid (bounded : nfa.Bounded) (places : ∀ i ∈ nfa.starts, i < nfa.states.size)
    (h : Valid nfa (ByteClasses.compute nfa) c) (done : c.pending.toList = [])
    (w : List UInt8) :
    (∀ i, Dfa.run ⟨ByteClasses.compute nfa, c.states⟩ 0 w = some i →
      ∃ set, c.setOf i = some set ∧ nfa.Reached w set) ∧
    (Dfa.run ⟨ByteClasses.compute nfa, c.states⟩ 0 w = none → nfa.Reached w []) := by
  induction w using List.reverseRecOn with
  | nil =>
    refine ⟨fun i result => ?_, nofun⟩
    cases result
    refine ⟨_, h.start, fun j => ?_⟩
    rw [mem_epsilonClosure bounded.epsilons places]
  | append_singleton w b ih =>
    rw [Dfa.run_append]
    cases before : Dfa.run ⟨ByteClasses.compute nfa, c.states⟩ 0 w with
    | none =>
      refine ⟨nofun, fun _ => ?_⟩
      exact (ih.2 before).stuck bounded rfl
    | some i =>
      obtain ⟨set, here, reached⟩ := ih.1 i before
      have next := next_of_valid h done here b
      rw [Option.bind_some, Dfa.run_singleton]
      exact ⟨fun j there => ⟨_, next.1 j there, reached.snoc bounded b⟩,
        fun absent => reached.stuck bounded (next.2 absent)⟩

/-- The deterministic automaton accepts the winning tokens. -/
theorem token_toDfa {tokens : List TokenPattern} {t : TerminalId} :
    (ofTokens tokens).toDfa.token 0 w = some t ↔ Wins tokens w t := by
  obtain ⟨entries, holds⟩ := exists_holds tokens
  obtain ⟨c, eq, valid, done⟩ := toDfa_valid holds.bounded holds.start_lt
  obtain ⟨found, lost⟩ := run_of_valid holds.bounded holds.start_lt valid done w
  rw [eq, Dfa.token]
  cases result : Dfa.run ⟨ByteClasses.compute (ofTokens tokens), c.states⟩ 0 w with
  | none =>
    rw [← holds.resolve .nil (lost result)]
    rfl
  | some i =>
    obtain ⟨set, there, reached⟩ := found i result
    obtain ⟨s, state, rfl⟩ := Option.map_eq_some_iff.1 there
    rw [Option.bind_some, Dfa.state, state, Option.getD_some, valid.sound.accept i s state,
      holds.resolve (valid.sound.sets i s state).1 reached]

end Nfa
end Lalr.Lexer
