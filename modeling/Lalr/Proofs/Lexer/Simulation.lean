import Lalr.Proofs.Lexer.Subset

/-! The deterministic automaton follows a nondeterministic one on every word, whatever the latter is
made of: the state that a word leads to lists the states that the word can lead to. States are found
from the start only, and each set of states is met once. -/
namespace Lalr.Lexer

open Subset

inductive Found (states : Array DfaState) : Nat → Prop where
  | start : Found states 0
  | move {i k j : Nat} {s : DfaState} : Found states i → states[i]? = some s →
      s.transitions.get? k = some j → Found states j

namespace Subset.Construction

variable {nfa : Nfa} {classes : ByteClasses} {c c' c'' : Construction} {i j k l : Nat}
  {set : List Nat} {s : DfaState}

def Keeps (c c' : Construction) : Prop :=
  ∀ (i : Nat) s k j, c.states[i]? = some s → s.transitions.get? k = some j →
    ∃ s', c'.states[i]? = some s' ∧ s'.transitions.get? k = some j

theorem Keeps.refl (c : Construction) : Keeps c c := fun _ s _ _ here leads => ⟨s, here, leads⟩

theorem Keeps.trans (first : Keeps c c') (second : Keeps c' c'') : Keeps c c'' := by
  intro i s k j here leads
  obtain ⟨s', here', leads'⟩ := first i s k j here leads
  exact second i s' k j here' leads'

theorem Keeps.found (keeps : Keeps c c') (found : Found c.states i) : Found c'.states i := by
  induction found with
  | start => exact .start
  | move _ here leads ih =>
    obtain ⟨s', here', leads'⟩ := keeps _ _ _ _ here leads
    exact .move ih here' leads'

/-- A set that is looked up is that of an old state, or of a new one at the end. -/
theorem intern_cases (nfa : Nfa) (c : Construction) (set : List Nat) :
    (c.intern nfa set).2 = c ∨ c.intern nfa set = (c.states.size, c.extend nfa set) := by
  rw [intern]
  split
  · exact .inl rfl
  · exact .inr rfl

theorem keeps_intern (nfa : Nfa) (c : Construction) (set : List Nat) :
    Keeps c (c.intern nfa set).2 := by
  rcases intern_cases nfa c set with same | new
  · rw [same]
    exact .refl c
  · rw [new]
    exact fun i s k j here leads => ⟨s, state_extend_of_state here, leads⟩

/-- A transition that is there already leads to the same state. -/
theorem keeps_link (h : Sound nfa classes c) (here : c.states[i]? = some s)
    (leads : Leads nfa classes c s k j) : Keeps c (c.link i k j) := by
  intro l t k' j' there leads'
  rw [state_link]
  by_cases same : i = l
  · subst same
    obtain rfl : s = t := Option.some.inj (here.symm.trans there)
    rw [if_pos rfl, here, Option.map_some]
    refine ⟨_, rfl, ?_⟩
    rw [OrderedMap.get?_insert]
    split
    · next again =>
      subst again
      obtain ⟨b, represents, -, target⟩ := leads
      obtain ⟨b', represents', -, target'⟩ := h.transitions i s k' j' there leads'
      obtain rfl : b = b' := Option.some.inj (represents.symm.trans represents')
      exact ((h.numbers _ j).2 target).symm.trans ((h.numbers _ j').2 target')
    · exact leads'
  · exact ⟨t, by rw [if_neg same, there], leads'⟩

/-- A transition is added together with the state that it leads to. -/
theorem found_addTransition (bounded : nfa.Bounded) (h : Sound nfa classes c)
    (here : c.states[i]? = some s) (found : ∀ l < c.states.size, Found c.states l) (k : Nat) :
    ∀ l < (addTransition nfa classes i c k).states.size,
      Found (addTransition nfa classes i c k).states l := by
  by_cases moves : ∃ b, classes.representative k = some b ∧ nfa.move s.nfaStates b ≠ []
  · obtain ⟨b, represents, moves⟩ := moves
    have isSet : IsSet nfa (nfa.epsilonClosure (nfa.move s.nfaStates b)) :=
      isSet_epsilonClosure bounded fun j => lt_of_mem_move bounded
    have cases := intern_cases nfa c (nfa.epsilonClosure (nfa.move s.nfaStates b))
    have keeps := keeps_intern nfa c (nfa.epsilonClosure (nfa.move s.nfaStates b))
    obtain ⟨sound, grows, number⟩ := intern_spec h isSet
    rw [addTransition_of_move here represents moves]
    generalize c.intern nfa (nfa.epsilonClosure (nfa.move s.nfaStates b)) = interned at *
    obtain ⟨j, c'⟩ := interned
    dsimp only at cases keeps sound grows number ⊢
    obtain ⟨t, there, same, -⟩ := grows.states i s here
    have leads : Leads nfa classes c' t k j := ⟨b, represents, by rwa [same], by rwa [same]⟩
    have keeps := keeps.trans (keeps_link sound there leads)
    intro l small
    by_cases old : l < c.states.size
    · exact keeps.found (found l old)
    · have last : l = j := by
        rcases cases with same | new
        · subst same
          simp [link, old] at small
        · cases new
          simp [link, extend] at small
          omega
      subst last
      have source := keeps.found (found i (Array.getElem?_eq_some_iff.1 here).1)
      refine source.move (s := { t with transitions := t.transitions.insert k l }) (k := k) ?_ ?_
      · simp [state_link, there]
      · simp [OrderedMap.get?_insert]
  · rwa [addTransition_of_idle here moves]

theorem found_addTransitions (bounded : nfa.Bounded) (h : Sound nfa classes c)
    (here : c.states[i]? = some s) (found : ∀ l < c.states.size, Found c.states l)
    (ks : List Nat) : ∀ l < (ks.foldl (addTransition nfa classes i) c).states.size,
      Found (ks.foldl (addTransition nfa classes i) c).states l := by
  induction ks generalizing c s with
  | nil => exact found
  | cons k rest ih =>
    obtain ⟨sound, grows, -⟩ := addTransition_spec bounded h here k
    obtain ⟨t, there, -⟩ := grows.states i s here
    exact ih sound there (found_addTransition bounded h here found k)

theorem found_step (bounded : nfa.Bounded) (h : Valid nfa classes c) (ongoing : c.more = true)
    (found : ∀ l < c.states.size, Found c.states l) :
    ∀ l < (c.step nfa classes).states.size, Found (c.step nfa classes).states l := by
  obtain ⟨i, pending, popped, waits⟩ := WorkList.exists_pop ongoing
  have small := h.sound.pending i (by simp [waits])
  have sound : Sound nfa classes { c with pending } :=
    { h.sound with
      pending := fun j member => h.sound.pending j (by rw [waits]; exact .tail _ member) }
  rw [step, popped]
  exact found_addTransitions bounded sound (Array.getElem?_eq_getElem small) found _

theorem found_initial (nfa : Nfa) :
    ∀ l < (initial nfa).states.size, Found (initial nfa).states l := by
  intro l small
  have zero : l = 0 := by
    simp [initial, intern] at small
    exact small
  subst zero
  exact .start

end Subset.Construction

namespace Nfa

variable {nfa : Nfa} {i j : Nat} {w : List UInt8} {a b : TokenAccept} {set : List Nat}

open Subset.Construction

theorem found_toDfa (bounded : nfa.Bounded) (places : ∀ i ∈ nfa.starts, i < nfa.states.size) :
    ∀ i < nfa.toDfa.states.size, Found nfa.toDfa.states i := by
  refine (iterate_invariant (P := fun c => Valid nfa (ByteClasses.compute nfa) c ∧
    ∀ l < c.states.size, Found c.states l) (fun c ⟨valid, found⟩ ongoing => ?_) _ (initial nfa) ?_).2
  · exact ⟨(step_valid bounded valid ongoing).1, found_step bounded valid ongoing found⟩
  · exact ⟨(initial_valid bounded places _).1, found_initial nfa⟩

/-- The word can lead to the state. -/
def Reads (nfa : Nfa) (w : List UInt8) (j : Nat) : Prop := ∃ i ∈ nfa.starts, nfa.Path i w j

/-- Of the accepting states that the word can lead to, the first one of least priority accepts
`a`. -/
def Chosen (nfa : Nfa) (w : List UInt8) (a : TokenAccept) : Prop :=
  ∃ j, nfa.Reads w j ∧ (nfa.state j).accept = some a ∧
    ∀ j' b, nfa.Reads w j' → (nfa.state j').accept = some b →
      a.priority < b.priority ∨ a.priority = b.priority ∧ j ≤ j'

theorem Chosen.unique (first : nfa.Chosen w a) (second : nfa.Chosen w b) : a = b := by
  obtain ⟨j, reads, accepts, least⟩ := first
  obtain ⟨j', reads', accepts', least'⟩ := second
  have below := least j' b reads' accepts'
  have below' := least' j a reads accepts
  obtain rfl : j = j' := by omega
  exact Option.some.inj (accepts.symm.trans accepts')

/-- Among the states that a word can lead to, the chosen one is resolved. -/
theorem resolveAccept_iff (sorted : set.Pairwise (· < ·)) (reached : nfa.Reached w set) :
    nfa.resolveAccept set = some a ↔ nfa.Chosen w a := by
  have chosen {b : TokenAccept} (resolved : nfa.resolveAccept set = some b) : nfa.Chosen w b := by
    obtain ⟨j, member, accepts, least⟩ := resolveAccept_spec sorted resolved
    exact ⟨j, (reached j).1 member, accepts,
      fun j' b reads => least j' ((reached j').2 reads) b⟩
  constructor
  · exact chosen
  · intro first
    obtain ⟨j, reads, accepts, -⟩ := id first
    obtain ⟨b, resolved⟩ := exists_resolveAccept ((reached j).2 reads) accepts
    rw [resolved, (chosen resolved).unique first]

end Nfa

/-- The deterministic automaton does on every word what the nondeterministic one can do. -/
structure Dfa.Simulates (d : Dfa) (nfa : Nfa) : Prop where
  /-- A word that is not empty leads somewhere exactly if it leads the other automaton somewhere. -/
  defined : ∀ w, w ≠ [] → ((d.run 0 w).isSome ↔ ∃ j, nfa.Reads w j)
  states : ∀ w i, d.run 0 w = some i → i < d.states.size ∧
    (d.state i).nfaStates.Pairwise (· < ·) ∧ ∀ j, j ∈ (d.state i).nfaStates ↔ nfa.Reads w j
  accept : ∀ w i t, d.run 0 w = some i →
    ((d.state i).accept = some t ↔ ∃ a, nfa.Chosen w a ∧ a.terminal = t)
  distinct : ∀ i < d.states.size, ∀ j < d.states.size,
    (d.state i).nfaStates = (d.state j).nfaStates → i = j
  reachable : ∀ i < d.states.size, ∃ w, d.run 0 w = some i

namespace Nfa

variable {nfa : Nfa} {c : Subset.Construction} {i j : Nat} {b : UInt8} {w : List UInt8}
  {set : List Nat}

open Subset.Construction

/-- A transition leads to a set that is not empty. -/
theorem exists_reads_of_next (bounded : nfa.Bounded) (h : Valid nfa (ByteClasses.compute nfa) c)
    (here : c.setOf i = some set) (reached : nfa.Reached w set)
    (leads : Dfa.next ⟨ByteClasses.compute nfa, c.states⟩ i b = some j) :
    ∃ l, nfa.Reads (w ++ [b]) l := by
  obtain ⟨s, state, rfl⟩ := Option.map_eq_some_iff.1 here
  obtain ⟨r, represents, same⟩ := ByteClasses.exists_representative nfa b
  rw [Dfa.next, Dfa.state, state, Option.getD_some] at leads
  obtain ⟨r', represents', moves, -⟩ := h.sound.transitions i s _ j state leads
  obtain rfl : r = r' := Option.some.inj (represents.symm.trans represents')
  rw [same] at moves
  obtain ⟨l, member⟩ := List.exists_mem_of_ne_nil _ moves
  refine ⟨l, (reached.snoc bounded b l).1 ?_⟩
  rw [mem_epsilonClosure bounded.epsilons fun j => lt_of_mem_move bounded]
  exact ⟨l, member, .refl l⟩

/-- Bytes lead to what is found along transitions: each class has a representative. -/
theorem exists_run_of_found (h : Valid nfa (ByteClasses.compute nfa) c)
    (found : Found c.states i) :
    ∃ w, Dfa.run ⟨ByteClasses.compute nfa, c.states⟩ 0 w = some i := by
  induction found with
  | start => exact ⟨[], rfl⟩
  | @move i k j s _ here leads ih =>
    obtain ⟨w, result⟩ := ih
    obtain ⟨b, represents, -⟩ := h.sound.transitions i s k j here leads
    have class_eq : (ByteClasses.compute nfa).get b = k := by
      simpa using List.find?_some represents
    refine ⟨w ++ [b], ?_⟩
    rw [Dfa.run_append, result, Option.bind_some, Dfa.run_singleton, Dfa.next, Dfa.state, here,
      Option.getD_some, class_eq, leads]

theorem bounded_iff : nfa.Bounded ↔ ∀ s ∈ nfa.states.toList,
    (∀ k ∈ s.epsilons, k < nfa.states.size) ∧ ∀ e ∈ s.edges, e.2 < nfa.states.size := by
  rw [← forall_state_iff ⟨by simp, by simp⟩]
  simp only [Bounded, Prod.forall]

instance (nfa : Nfa) : Decidable nfa.Bounded := decidable_of_iff _ bounded_iff.symm

/-- A word that is not empty leads somewhere exactly if it leads to some states. -/
theorem isSome_run_toDfa_iff (bounded : nfa.Bounded)
    (places : ∀ i ∈ nfa.starts, i < nfa.states.size) (nonempty : w ≠ []) :
    (nfa.toDfa.run 0 w).isSome ↔ ∃ j, nfa.Reads w j := by
  obtain ⟨c, eq, valid, done⟩ := toDfa_valid bounded places
  have runs := run_of_valid bounded places valid done
  obtain ⟨u, b, rfl⟩ := List.eq_nil_or_concat w |>.resolve_left nonempty
  rw [List.concat_eq_append, eq]
  cases result : Dfa.run ⟨ByteClasses.compute nfa, c.states⟩ 0 (u ++ [b]) with
  | none =>
    have stuck := (runs _).2 result
    simpa [Reached, Reads] using stuck
  | some j =>
    rw [Dfa.run_append] at result
    obtain ⟨i, before, last⟩ := Option.bind_eq_some_iff.1 result
    rw [Dfa.run_singleton] at last
    obtain ⟨set, here, reached⟩ := (runs u).1 i before
    simpa using exists_reads_of_next bounded valid here reached last

theorem exists_run_toDfa (bounded : nfa.Bounded) (places : ∀ i ∈ nfa.starts, i < nfa.states.size)
    (small : i < nfa.toDfa.states.size) : ∃ w, nfa.toDfa.run 0 w = some i := by
  obtain ⟨c, eq, valid, -⟩ := toDfa_valid bounded places
  have found := found_toDfa bounded places i small
  rw [eq] at found ⊢
  exact exists_run_of_found valid found

/-- The subset construction simulates every automaton whose starts are states and whose edges lead to
states. -/
theorem toDfa_simulates (bounded : nfa.Bounded)
    (places : ∀ i ∈ nfa.starts, i < nfa.states.size) : nfa.toDfa.Simulates nfa := by
  have defined w := isSome_run_toDfa_iff (w := w) bounded places
  have reachable i := exists_run_toDfa (i := i) bounded places
  obtain ⟨c, eq, valid, done⟩ := toDfa_valid bounded places
  have runs := run_of_valid bounded places valid done
  rw [eq] at defined reachable ⊢
  have stands {w : List UInt8} {i : Nat}
      (result : Dfa.run ⟨ByteClasses.compute nfa, c.states⟩ 0 w = some i) :
      ∃ s, c.states[i]? = some s ∧ nfa.Reached w s.nfaStates := by
    obtain ⟨set, there, reached⟩ := (runs w).1 i result
    obtain ⟨s, state, rfl⟩ := Option.map_eq_some_iff.1 there
    exact ⟨s, state, reached⟩
  constructor
  case defined => exact defined
  case states =>
    intro w i result
    obtain ⟨s, state, reached⟩ := stands result
    rw [Dfa.state, state]
    exact ⟨(Array.getElem?_eq_some_iff.1 state).1, (valid.sound.sets i s state).1, reached⟩
  case accept =>
    intro w i t result
    obtain ⟨s, state, reached⟩ := stands result
    rw [Dfa.state, state, Option.getD_some, valid.sound.accept i s state, Option.map_eq_some_iff]
    simp only [resolveAccept_iff (valid.sound.sets i s state).1 reached]
  case distinct =>
    intro i small j small' same
    have number {l : Nat} (small : l < c.states.size) : c.numbers[c.states[l].nfaStates]? = some l :=
      (valid.sound.numbers _ l).2 (by simp [Construction.setOf, small])
    simp only [Dfa.state, Array.getElem?_eq_getElem small, Array.getElem?_eq_getElem small',
      Option.getD_some] at same
    have first := number small
    rw [same, number small'] at first
    exact (Option.some.inj first).symm
  case reachable => exact reachable

/-- Both start states are on a cycle of epsilon edges, an edge has no byte, and the two accepting
states have the same priority. -/
def tangled : Nfa where
  states := #[
    { edges := [(.singleton 97, 3), (∅, 1)], epsilons := [1] },
    { edges := [(.ofList [97, 98], 2)], epsilons := [0] },
    { edges := [(.singleton 97, 2)], accept := some ⟨⟨4⟩, 0⟩ },
    { accept := some ⟨⟨3⟩, 0⟩ }]
  starts := [1, 0]

theorem toDfa_simulates_tangled : tangled.Bounded ∧
    (∀ i ∈ tangled.starts, i < tangled.states.size) ∧ tangled.toDfa.Simulates tangled ∧
    (tangled.toDfa.run 0 [97]).map (fun i =>
      ((tangled.toDfa.state i).nfaStates, (tangled.toDfa.state i).accept)) =
      some ([2, 3], some ⟨4⟩) ∧
    tangled.toDfa.run 0 [98, 98] = none := by
  have bounded : tangled.Bounded := by decide
  have places : ∀ i ∈ tangled.starts, i < tangled.states.size := by decide
  exact ⟨bounded, places, toDfa_simulates bounded places, by decide +kernel, by decide +kernel⟩

end Nfa
end Lalr.Lexer
