import Lalr.Proofs.Lexer.Coarsest

/-! The minimal automaton is the quotient of an automaton by the equivalence of its states. What it
does on words, and that it is minimal itself, follows from this alone. -/
namespace Lalr.Lexer

open Lalr.Lexer.Minimal

namespace Dfa

variable {d : Dfa} {i j n p m : Nat}

/-- The states of `q` are the classes of equivalent states of `d`, where `number` gives the class of
each state. -/
structure IsQuotient (d q : Dfa) (number : Nat → Nat) : Prop where
  classes : q.classes = d.classes
  lt : ∀ i < d.states.size, number i < q.states.size
  onto : ∀ p < q.states.size, ∃ i < d.states.size, number i = p
  exact : ∀ i < d.states.size, ∀ j < d.states.size, number i = number j ↔ d.Equivalent i j
  start : number 0 = 0
  /-- Classes are numbered in the order of their smallest members. -/
  ascending : ∀ i < d.states.size, ∀ p < number i, ∃ j < i, number j = p
  accept : ∀ i < d.states.size, (q.state (number i)).accept = (d.state i).accept
  transitions : ∀ i < d.states.size, ∀ k, (q.state (number i)).transitions.get? k =
    ((d.state i).transitions.get? k).map number
  /-- The transitions are in the order of those of the smallest member. -/
  order : ∀ i < d.states.size, (∀ j < i, number j ≠ number i) →
    (q.state (number i)).transitions.keys = (d.state i).transitions.keys
  nfaStates : ∀ p < q.states.size, ∀ n, n ∈ (q.state p).nfaStates ↔
    ∃ i < d.states.size, number i = p ∧ n ∈ (d.state i).nfaStates

/-- The states list their NFA states in ascending order, each one once. -/
def Ascending (d : Dfa) : Prop :=
  ∀ i, (d.state i).nfaStates.Pairwise (· < ·)

/-- An automaton with at most one state is its own quotient. -/
theorem isQuotient_self (few : d.states.size ≤ 1) : d.IsQuotient d id := by
  have only {i : Nat} (small : i < d.states.size) : i = 0 := by omega
  constructor
  case classes => rfl
  case lt => exact fun i small => small
  case onto => exact fun p small => ⟨p, small, rfl⟩
  case exact =>
    intro i small j small'
    obtain rfl := only small
    obtain rfl := only small'
    exact iff_of_true rfl (Equivalent.refl d 0)
  case start => rfl
  case ascending =>
    intro i small p less
    obtain rfl := only small
    exact absurd less (Nat.not_lt_zero p)
  case accept => exact fun i _ => rfl
  case transitions => exact fun i _ k => Option.map_id'.symm
  case order => exact fun i _ _ => rfl
  case nfaStates =>
    intro p small n
    constructor
    · exact fun member => ⟨p, small, rfl, member⟩
    · rintro ⟨i, -, rfl, member⟩
      exact member

def number (d : Dfa) (i : Nat) : Nat :=
  (positions (refine d))[(refine d).blockOf[i]?.getD 0]?.getD 0

section Number

/-- The number of a state is the position of the leader of its block. -/
theorem exists_leader (small : i < d.states.size) :
    ∃ B m : Nat, (refine d).blockOf[i]? = some B ∧ (leaders (refine d))[d.number i]? = some m ∧
      (refine d).blockOf[m]? = some B ∧ m ≤ i := by
  have partition := (refine_stable d).1
  obtain ⟨B, -, here, -⟩ := partition.exists_block small
  obtain ⟨n, m, at_n, block, le, position⟩ := exists_position partition here
  refine ⟨B, m, here, ?_, block, le⟩
  rw [number, here, Option.getD_some, position, Option.getD_some]
  exact at_n

theorem stands_number (small : i < d.states.size) : d.Stands i (d.number i) := by
  obtain ⟨B, m, here, leads, block, -⟩ := exists_leader small
  exact ⟨B, m, here, leads, block⟩

theorem number_eq_iff (small : i < d.states.size) (small' : j < d.states.size) :
    d.number i = d.number j ↔ (refine d).blockOf[i]? = (refine d).blockOf[j]? := by
  constructor
  · intro same
    obtain ⟨B, m, here, leads, block, -⟩ := exists_leader small
    obtain ⟨B', m', here', leads', block', -⟩ := exists_leader small'
    rw [same] at leads
    obtain rfl := Option.some.inj (leads.symm.trans leads')
    rw [here, here', ← block, ← block']
  · intro same
    rw [number, number, same]

/-- The leaders have their positions as numbers. -/
theorem number_of_leader (leads : (leaders (refine d))[p]? = some m) :
    m < d.states.size ∧ d.number m = p := by
  have partition := (refine_stable d).1
  obtain ⟨B, members, there, least⟩ := mem_leaders.1 (List.mem_of_getElem? leads)
  have block := (partition.member B members there m).1 (List.min?_mem least)
  have small : m < d.states.size := by
    rw [← partition.size]
    exact (Array.getElem?_eq_some_iff.1 block).1
  refine ⟨small, ?_⟩
  obtain ⟨B', m', here, leads', block', -⟩ := exists_leader small
  obtain rfl := leader_unique partition (List.mem_of_getElem? leads) (List.mem_of_getElem? leads')
    here block'
  have nodup : (leaders (refine d)).Nodup := (pairwise_leaders (refine d)).imp Nat.ne_of_lt
  exact (List.getElem?_inj (List.getElem?_eq_some_iff.1 leads').1 nodup).1
    (leads'.trans leads.symm)

/-- A block with a smaller number has a smaller leader. -/
theorem exists_number_eq (small : i < d.states.size) (less : p < d.number i) :
    ∃ j < i, d.number j = p := by
  obtain ⟨B, m, -, leads, -, le⟩ := exists_leader small
  obtain ⟨bound, at_m⟩ := List.getElem?_eq_some_iff.1 leads
  have inside := Nat.lt_trans less bound
  have before := List.pairwise_iff_getElem.1 (pairwise_leaders (refine d)) p _ inside bound less
  rw [at_m] at before
  exact ⟨_, Nat.lt_of_lt_of_le before le, (number_of_leader (List.getElem?_eq_getElem inside)).2⟩

theorem transitions_minimize (large : 1 < d.states.size)
    (leads : (leaders (refine d))[p]? = some m) :
    (d.minimize.state p).transitions = (d.state m).transitions.mapValues fun _ => d.number :=
  (state_minimize large leads).2

theorem nfaStates_minimize (large : 1 < d.states.size)
    (leads : (leaders (refine d))[p]? = some m) : (d.minimize.state p).nfaStates =
      sortedSet (((refine d).blocks[(refine d).blockOf[m]?.getD 0]?.getD []).flatMap fun i =>
        (d.state i).nfaStates) := by
  rw [minimize, if_neg (Nat.not_le_of_lt large), state]
  dsimp only
  rw [List.getElem?_toArray, List.getElem?_map, leads, Option.map_some, Option.getD_some]

theorem mem_nfaStates_minimize (large : 1 < d.states.size)
    (leads : (leaders (refine d))[p]? = some m) : n ∈ (d.minimize.state p).nfaStates ↔
      ∃ i < d.states.size, d.number i = p ∧ n ∈ (d.state i).nfaStates := by
  have partition := (refine_stable d).1
  obtain ⟨small, rfl⟩ := number_of_leader leads
  obtain ⟨B, members, here, there⟩ := partition.exists_block small
  rw [nfaStates_minimize large leads, here, Option.getD_some, there, Option.getD_some,
    mem_sortedSet, List.mem_flatMap]
  refine exists_congr fun i => ?_
  rw [partition.member B members there, ← and_assoc]
  refine and_congr_left fun _ => ?_
  constructor
  · intro here'
    have small' := (Array.getElem?_eq_some_iff.1 here').1
    rw [partition.size] at small'
    exact ⟨small', (number_eq_iff small' small).2 (here'.trans here.symm)⟩
  · rintro ⟨small', same⟩
    exact ((number_eq_iff small' small).1 same).trans here

/-- Equivalent states have the same transitions up to numbers. -/
theorem map_number_eq (closed : d.Closed) (equivalent : d.Equivalent i j) (k : Nat) :
    ((d.state i).transitions.get? k).map d.number =
      ((d.state j).transitions.get? k).map d.number := by
  have moves {i j i' : Nat} (equivalent : d.Equivalent i j)
      (leads : (d.state i).transitions.get? k = some i') :
      ((d.state j).transitions.get? k).map d.number = some (d.number i') := by
    obtain ⟨j', leads', equivalent'⟩ := equivalent.exists_move (closed.keys i k i' leads) leads
    have small := closed.targets i k i' leads
    have small' := closed.targets j k j' leads'
    rw [leads', Option.map_some,
      (number_eq_iff small small').2 ((blockOf_eq_iff closed small small').2 equivalent')]
  cases leads : (d.state i).transitions.get? k with
  | some i' => rw [moves equivalent leads, Option.map_some]
  | none =>
    cases leads' : (d.state j).transitions.get? k with
    | some j' => rw [← leads, moves equivalent.symm leads', Option.map_some]
    | none => rfl

end Number

theorem minimize_isQuotient (closed : d.Closed) (large : 1 < d.states.size) :
    d.IsQuotient d.minimize d.number := by
  have partition := (refine_stable d).1
  have leader {p : Nat} (small : p < d.minimize.states.size) :
      ∃ m, (leaders (refine d))[p]? = some m := by
    rw [size_minimize large] at small
    exact ⟨_, List.getElem?_eq_getElem small⟩
  constructor
  case classes => exact classes_minimize d
  case lt =>
    intro i small
    obtain ⟨B, m, -, leads, -⟩ := exists_leader small
    rw [size_minimize large]
    exact (List.getElem?_eq_some_iff.1 leads).1
  case onto =>
    intro p small
    obtain ⟨m, leads⟩ := leader small
    exact ⟨m, number_of_leader leads⟩
  case exact =>
    intro i small j small'
    rw [number_eq_iff small small', blockOf_eq_iff closed small small']
  case start =>
    have zero : 0 < d.states.size := Nat.lt_trans Nat.zero_lt_one large
    by_contra other
    obtain ⟨j, less, -⟩ := exists_number_eq zero (Nat.pos_of_ne_zero other)
    exact Nat.not_lt_zero j less
  case ascending => exact fun i small p less => exists_number_eq small less
  case accept => exact fun i small => accept_of_stands large (stands_number small)
  case transitions =>
    intro i small k
    obtain ⟨B, m, here, leads, block, -⟩ := exists_leader small
    rw [transitions_minimize large leads, OrderedMap.get?_mapValues]
    exact map_number_eq closed (equivalent_of_block closed block here) k
  case order =>
    intro i small first
    obtain ⟨B, m, -, leads, -, le⟩ := exists_leader small
    obtain rfl | less := Nat.eq_or_lt_of_le le
    · rw [transitions_minimize large leads, OrderedMap.keys_mapValues]
    · exact absurd (number_of_leader leads).2 (first m less)
  case nfaStates =>
    intro p small n
    obtain ⟨m, leads⟩ := leader small
    exact mem_nfaStates_minimize large leads

/-- The lists of several states are sorted where they are united. -/
theorem ascending_minimize (large : 1 < d.states.size) : d.minimize.Ascending := by
  intro p
  rcases state_cases d.minimize p with there | none
  · have small := (Array.getElem?_eq_some_iff.1 there).1
    rw [size_minimize large] at small
    rw [nfaStates_minimize large (List.getElem?_eq_getElem small)]
    exact (pairwise_sortedSet _).imp Nat.compare_eq_lt.1
  · rw [none]
    exact List.Pairwise.nil

/-- The minimal automaton is a quotient, of whatever size. -/
theorem exists_isQuotient (closed : d.Closed) : ∃ number, d.IsQuotient d.minimize number := by
  by_cases large : 1 < d.states.size
  · exact ⟨d.number, minimize_isQuotient closed large⟩
  · rw [minimize, if_pos (Nat.le_of_not_lt large)]
    exact ⟨id, isQuotient_self (Nat.le_of_not_lt large)⟩

/-- A byte leads where its class does. -/
theorem run_eq_follow (d : Dfa) (i : Nat) (bytes : List UInt8) :
    d.run i bytes = d.follow i (bytes.map d.classes.get) := by
  induction bytes generalizing i with
  | nil => rfl
  | cons b rest ih =>
    rw [run, List.map_cons, follow]
    exact congrArg _ (funext ih)

namespace IsQuotient

variable {q : Dfa} {number : Nat → Nat} {w : List Nat}

theorem outcome (h : d.IsQuotient q number) (closed : d.Closed) (small : i < d.states.size) :
    q.outcome (number i) w = d.outcome i w := by
  induction w generalizing i with
  | nil => rw [outcome_nil, outcome_nil, h.accept i small]
  | cons k rest ih =>
    rw [outcome_cons, outcome_cons, h.transitions i small]
    cases leads : (d.state i).transitions.get? k with
    | none => rfl
    | some j => exact ih (closed.targets i k j leads)

/-- Words tell apart what they tell apart in the automaton. -/
theorem equivalent_iff (h : d.IsQuotient q number) (closed : d.Closed) (small : i < d.states.size)
    (small' : j < d.states.size) :
    q.Equivalent (number i) (number j) ↔ d.Equivalent i j := by
  rw [Equivalent, Equivalent, h.classes]
  simp only [h.outcome closed small, h.outcome closed small']

/-- Words tell all states of the quotient apart. -/
theorem eq_of_equivalent (h : d.IsQuotient q number) (closed : d.Closed) (small : i < q.states.size)
    (small' : j < q.states.size) (equivalent : q.Equivalent i j) : i = j := by
  obtain ⟨i, inside, rfl⟩ := h.onto i small
  obtain ⟨j, inside', rfl⟩ := h.onto j small'
  exact (h.exact i inside j inside').2 ((h.equivalent_iff closed inside inside').1 equivalent)

/-- Every transition comes from one of the automaton. -/
theorem exists_origin {k r : Nat} (h : d.IsQuotient q number)
    (leads : (q.state p).transitions.get? k = some r) :
    ∃ i j, (d.state i).transitions.get? k = some j ∧ number j = r := by
  rcases state_cases q p with there | none
  · obtain ⟨i, small, rfl⟩ := h.onto p (Array.getElem?_eq_some_iff.1 there).1
    rw [h.transitions i small] at leads
    obtain ⟨j, leads', rfl⟩ := Option.map_eq_some_iff.1 leads
    exact ⟨i, j, leads', rfl⟩
  · rw [none] at leads
    cases leads

theorem closed (h : d.IsQuotient q number) (closed : d.Closed) : q.Closed := by
  constructor
  case keys =>
    intro p k r leads
    obtain ⟨i, j, leads', -⟩ := h.exists_origin leads
    rw [h.classes]
    exact closed.keys i k j leads'
  case targets =>
    intro p k r leads
    obtain ⟨i, j, leads', rfl⟩ := h.exists_origin leads
    exact h.lt j (closed.targets i k j leads')

section Apart

variable (h : d.IsQuotient q number) (closed : d.Closed)
  (apart : ∀ i < d.states.size, ∀ j < d.states.size, d.Equivalent i j → i = j)
  (sorted : d.Ascending) (sorted' : q.Ascending)

include h apart

/-- Where words tell all states apart, the classes are numbered as the states are. -/
theorem number_eq_self (small : i < d.states.size) : number i = i := by
  induction i using Nat.strong_induction_on with
  | _ i ih =>
    rcases Nat.lt_trichotomy (number i) i with less | same | greater
    · have inside := Nat.lt_trans less small
      have same := apart _ inside i small ((h.exact _ inside i small).1 (ih _ less inside))
      exact absurd same (Nat.ne_of_lt less)
    · exact same
    · obtain ⟨j, less, same⟩ := h.ascending i small i greater
      rw [ih j less (Nat.lt_trans less small)] at same
      exact absurd same (Nat.ne_of_lt less)

theorem size_eq : q.states.size = d.states.size := by
  apply Nat.le_antisymm
  · by_contra more
    obtain ⟨i, small, same⟩ := h.onto d.states.size (Nat.lt_of_not_le more)
    rw [h.number_eq_self apart small] at same
    exact Nat.ne_of_lt small same
  · by_contra fewer
    have small := Nat.lt_of_not_le fewer
    have inside := h.lt q.states.size small
    rw [h.number_eq_self apart small] at inside
    exact Nat.lt_irrefl _ inside

include closed sorted sorted'

theorem state_eq (small : i < d.states.size) : q.state i = d.state i := by
  have same {j : Nat} (small : j < d.states.size) : number j = j := h.number_eq_self apart small
  have nfaStates : (q.state i).nfaStates = (d.state i).nfaStates := by
    refine eq_of_pairwise_lt ((sorted' i).imp Nat.compare_eq_lt.2)
      ((sorted i).imp Nat.compare_eq_lt.2) fun n => ?_
    rw [h.nfaStates i (by rwa [h.size_eq apart])]
    constructor
    · rintro ⟨j, small', rfl, member⟩
      rwa [same small']
    · exact fun member => ⟨i, small, same small, member⟩
  have transitions : (q.state i).transitions = (d.state i).transitions := by
    have order := h.order i small fun j less => by
      rw [same small, same (Nat.lt_trans less small)]
      exact Nat.ne_of_lt less
    rw [same small] at order
    refine OrderedMap.eq_of_keys_eq order fun k => ?_
    have targets := h.transitions i small k
    rw [same small] at targets
    rw [targets]
    cases leads : (d.state i).transitions.get? k with
    | none => rfl
    | some j => exact congrArg some (same (closed.targets i k j leads))
  have accept := h.accept i small
  rw [same small] at accept
  cases one : q.state i
  cases other : d.state i
  simp_all only

/-- An automaton whose states words tell apart is its own quotient. -/
theorem eq_self : q = d := by
  have states : q.states = d.states := by
    apply Array.ext (h.size_eq apart)
    intro i small small'
    have same := h.state_eq closed apart sorted sorted' small'
    rwa [Dfa.state_eq (Array.getElem?_eq_getElem small),
      Dfa.state_eq (Array.getElem?_eq_getElem small')] at same
  have classes := h.classes
  cases q
  cases d
  simp_all only

end Apart

theorem map_accept_run (h : d.IsQuotient q number) (closed : d.Closed)
    (small : i < d.states.size) (bytes : List UInt8) :
    (q.run (number i) bytes).map (fun j => (q.state j).accept) =
      (d.run i bytes).map fun j => (d.state j).accept := by
  rw [run_eq_follow q, run_eq_follow d, h.classes]
  exact h.outcome closed small

end IsQuotient

/-- Longest matches are decided by what is accepted after each word. -/
theorem longestMatch_congr {d' : Dfa} (same : ∀ w, d'.token 0 w = d.token 0 w)
    (input : List UInt8) : d'.longestMatch input = d.longestMatch input := by
  refine Option.ext fun ⟨t, l⟩ => ?_
  rw [longestMatch_eq_some_iff, longestMatch_eq_some_iff]
  constructor
  · intro h
    refine ⟨h.pos, h.le, same _ ▸ h.accepted, fun m less le => same _ ▸ h.longest m less le⟩
  · intro h
    refine ⟨h.pos, h.le, (same _).trans h.accepted, fun m less le => ?_⟩
    exact (same _).trans (h.longest m less le)

theorem map_accept_run_minimize (closed : d.Closed) (bytes : List UInt8) :
    (d.minimize.run 0 bytes).map (fun i => (d.minimize.state i).accept) =
      (d.run 0 bytes).map fun i => (d.state i).accept := by
  by_cases large : 1 < d.states.size
  case neg => rw [minimize, if_pos (Nat.le_of_not_lt large)]
  have quotient := minimize_isQuotient closed large
  have start := quotient.map_accept_run closed (Nat.lt_trans Nat.zero_lt_one large) bytes
  rw [quotient.start] at start
  exact start

theorem minimize_minimize (closed : d.Closed) : d.minimize.minimize = d.minimize := by
  by_cases large : 1 < d.states.size
  case neg => simp only [minimize, if_pos (Nat.le_of_not_lt large)]
  by_cases large' : 1 < d.minimize.states.size
  case neg => exact if_pos (Nat.le_of_not_lt large')
  have quotient := minimize_isQuotient closed large
  have closed' := quotient.closed closed
  exact (minimize_isQuotient closed' large').eq_self closed'
    (fun i small j small' => quotient.eq_of_equivalent closed small small')
    (ascending_minimize large) (ascending_minimize large')

/-- Minimization yields the quotient by the equivalence of states, with lists in ascending order
unless a single state had another one. Every run ends with what it ended with, longest matches stay,
and there is nothing left to merge. -/
theorem minimize_exact (closed : d.Closed) :
    (∃ number, d.IsQuotient d.minimize number) ∧
      (1 < d.states.size ∨ d.Ascending → d.minimize.Ascending) ∧
      (∀ bytes, (d.minimize.run 0 bytes).map (fun i => (d.minimize.state i).accept) =
        (d.run 0 bytes).map fun i => (d.state i).accept) ∧
      (∀ input, d.minimize.longestMatch input = d.longestMatch input) ∧
      d.minimize.minimize = d.minimize := by
  have matches_eq : ∀ input, d.minimize.longestMatch input = d.longestMatch input := by
    refine longestMatch_congr fun w => ?_
    rw [token_eq_join, token_eq_join, map_accept_run_minimize closed]
  have ascending : 1 < d.states.size ∨ d.Ascending → d.minimize.Ascending := by
    by_cases large : 1 < d.states.size
    · exact fun _ => ascending_minimize large
    · rw [minimize, if_pos (Nat.le_of_not_lt large)]
      exact fun either => either.resolve_left large
  exact ⟨exists_isQuotient closed, ascending, map_accept_run_minimize closed, matches_eq,
    minimize_minimize closed⟩

/-- The states 1, 2 and 5 accept and then move to a state that is stuck; 3 and 4 are stuck; 5 is not
reachable. -/
def withTwins : Dfa where
  classes := ⟨Array.replicate 97 2 ++ #[0, 1] ++ Array.replicate 157 2, 3⟩
  states := #[
    ⟨[0], .ofList [(0, 1), (1, 2)], none⟩, ⟨[3, 7], .ofList [(0, 3)], some ⟨3⟩⟩,
    ⟨[5, 7], .ofList [(0, 4)], some ⟨3⟩⟩, ⟨[], ∅, none⟩, ⟨[2], ∅, none⟩,
    ⟨[1], .ofList [(0, 3)], some ⟨3⟩⟩]

theorem minimize_exact_withTwins : withTwins.Closed ∧ withTwins.minimize.states.size = 3 ∧
    (∃ number, withTwins.IsQuotient withTwins.minimize number) ∧ withTwins.minimize.Ascending ∧
    withTwins.minimize.minimize = withTwins.minimize := by
  have closed : withTwins.Closed := by decide +kernel
  obtain ⟨quotient, ascending, -, -, stable⟩ := minimize_exact closed
  exact ⟨closed, by decide +kernel, quotient, ascending (.inl (by decide)), stable⟩

/-- One state with a list that is not in ascending order and names a state twice. -/
def disordered : Dfa where
  classes := ⟨Array.replicate 256 0, 1⟩
  states := #[⟨[1, 0, 0], ∅, none⟩]

/-- An automaton with a single state is returned before any list is sorted. -/
theorem minimize_keeps_disorder : disordered.Closed ∧
    (disordered.minimize.state 0).nfaStates = [1, 0, 0] ∧ ¬ disordered.minimize.Ascending := by
  have same : (disordered.minimize.state 0).nfaStates = [1, 0, 0] := by decide +kernel
  refine ⟨by decide +kernel, same, fun ascending => ?_⟩
  have sorted := ascending 0
  rw [same] at sorted
  exact absurd sorted (by decide)

end Dfa
end Lalr.Lexer
