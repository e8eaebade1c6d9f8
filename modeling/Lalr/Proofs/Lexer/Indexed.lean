import Lalr.Proofs.Lexer.Recognition

/-! The numbers in the automata of the lexer: transitions are on classes of bytes and lead to
states, and what is accepted is the terminal of a token. Minimization renumbers the states and
keeps this. -/
namespace Lalr.Lexer

open Nfa Lalr.Lexer.Minimal

/-- Every number in the automaton is that of a class or a state, and there is a first state. -/
structure Dfa.Indexed (d : Dfa) (tokens : List TokenPattern) : Prop extends d.Proper where
  start : 0 < d.states.size
  keys : ∀ i k j, (d.state i).transitions.get? k = some j → k < d.classes.size
  accept : ∀ i t, (d.state i).accept = some t → ∃ p ∈ tokens, p.terminal = t

variable {d : Dfa} {tokens : List TokenPattern} {i : Nat}

theorem Dfa.state_eq {s : DfaState} (there : d.states[i]? = some s) : d.state i = s := by
  rw [Dfa.state, there, Option.getD_some]

theorem Dfa.exists_state_of_mem {s : DfaState} (member : s ∈ d.states.toList) :
    ∃ i, d.state i = s := by
  obtain ⟨i, there⟩ := Array.getElem?_of_mem (Array.mem_toList_iff.1 member)
  exact ⟨i, Dfa.state_eq there⟩

/-- What belongs to a state that is not there belongs to the empty state. -/
theorem Dfa.state_cases (d : Dfa) (i : Nat) :
    d.states[i]? = some (d.state i) ∨ d.state i = ⟨[], ∅, none⟩ := by
  cases there : d.states[i]? with
  | none =>
    refine .inr ?_
    rw [Dfa.state, there, Option.getD_none]
  | some s => exact .inl (congrArg some (Dfa.state_eq there).symm)

/-- Accepting states of the tokens accept terminals of tokens. -/
theorem Nfa.Holds.accept_mem {nfa : Nfa} {entries : List Compiled} (h : Holds tokens nfa entries)
    {a : TokenAccept} (accepts : (nfa.state i).accept = some a) :
    ∃ p ∈ tokens, p.terminal = a.terminal := by
  obtain ⟨e, inEntries, -, rfl⟩ := (h.accepts i a).1 accepts
  have listed := (h.listed e.position e.token e.pattern).2 ⟨e, inEntries, rfl, rfl, rfl⟩
  exact ⟨e.token, List.mem_of_getElem? listed.1, rfl⟩

theorem toDfa_indexed (tokens : List TokenPattern) : (ofTokens tokens).toDfa.Indexed tokens := by
  have proper := toDfa_proper tokens
  obtain ⟨entries, holds⟩ := exists_holds tokens
  obtain ⟨c, eq, valid, -⟩ := toDfa_valid holds.bounded holds.start_lt
  constructor
  case toProper => exact proper
  case start =>
    obtain ⟨s, first, -⟩ := Option.map_eq_some_iff.1 valid.start
    rw [eq]
    exact (Array.getElem?_eq_some_iff.1 first).1
  case keys =>
    intro i k j leads
    rcases Dfa.state_cases (ofTokens tokens).toDfa i with there | none
    · rw [eq] at there
      obtain ⟨b, represents, -⟩ := valid.sound.transitions i _ k j there (by rwa [← eq])
      have same : (ByteClasses.compute (ofTokens tokens)).get b = k := by
        simpa using List.find?_some represents
      rw [← same, eq]
      exact List.mem_range.1 (ByteClasses.get_mem_toList _ b)
    · rw [none] at leads
      cases leads
  case accept =>
    intro i t accepts
    rcases Dfa.state_cases (ofTokens tokens).toDfa i with there | none
    · rw [eq] at there accepts
      rw [valid.sound.accept i _ there] at accepts
      obtain ⟨a, resolved, rfl⟩ := Option.map_eq_some_iff.1 accepts
      obtain ⟨j, -, accepts', -⟩ := resolveAccept_spec (valid.sound.sets i _ there).1 resolved
      exact holds.accept_mem accepts'
    · rw [none] at accepts
      cases accepts

theorem size_minimize (large : 1 < d.states.size) :
    d.minimize.states.size = (leaders (refine d)).length := by
  rw [Dfa.minimize, if_neg (Nat.not_le_of_lt large)]
  simp

/-- Each state of the minimal automaton looks like a state of the automaton, with its targets
renumbered. -/
theorem exists_state_minimize (large : 1 < d.states.size) {p : Nat}
    (small : p < d.minimize.states.size) :
    ∃ m, (d.minimize.state p).accept = (d.state m).accept ∧
      (d.minimize.state p).transitions = (d.state m).transitions.mapValues fun _ j =>
        (positions (refine d))[(refine d).blockOf[j]?.getD 0]?.getD 0 := by
  rw [size_minimize large] at small
  exact ⟨_, Dfa.state_minimize large (List.getElem?_eq_getElem small)⟩

/-- A transition of the minimal automaton is on the class of one of the automaton, and leads to a
state. -/
theorem exists_transition_minimize (h : d.Proper) (large : 1 < d.states.size) {p k q : Nat}
    (leads : (d.minimize.state p).transitions.get? k = some q) :
    ∃ m j, (d.state m).transitions.get? k = some j ∧ q < d.minimize.states.size := by
  rcases Dfa.state_cases d.minimize p with there | none
  · obtain ⟨m, -, transitions⟩ :=
      exists_state_minimize large (Array.getElem?_eq_some_iff.1 there).1
    rw [transitions, OrderedMap.get?_mapValues] at leads
    obtain ⟨j, leads', rfl⟩ := Option.map_eq_some_iff.1 leads
    have partition := (refine_stable d).1
    obtain ⟨C, -, here, -⟩ := partition.exists_block (h.targets m k j leads')
    obtain ⟨n, l, at_n, -, -, position⟩ := exists_position partition here
    refine ⟨m, j, leads', ?_⟩
    rw [here, Option.getD_some, position, Option.getD_some, size_minimize large]
    exact (List.getElem?_eq_some_iff.1 at_n).1
  · rw [none] at leads
    cases leads

theorem minimize_indexed (h : d.Indexed tokens) : d.minimize.Indexed tokens := by
  by_cases large : 1 < d.states.size
  case neg =>
    rw [Dfa.minimize, if_pos (Nat.le_of_not_lt large)]
    exact h
  constructor
  case toProper =>
    constructor
    case classes =>
      rw [Dfa.classes_minimize]
      exact h.classes
    case targets =>
      intro p k q leads
      obtain ⟨-, -, -, small⟩ := exists_transition_minimize h.toProper large leads
      exact small
  case start =>
    have partition := (refine_stable d).1
    obtain ⟨C, -, here, -⟩ := partition.exists_block h.start
    obtain ⟨n, l, at_n, -⟩ := exists_position partition here
    rw [size_minimize large]
    exact Nat.zero_lt_of_lt (List.getElem?_eq_some_iff.1 at_n).1
  case keys =>
    intro p k q leads
    obtain ⟨m, j, leads', -⟩ := exists_transition_minimize h.toProper large leads
    rw [Dfa.classes_minimize]
    exact h.keys m k j leads'
  case accept =>
    intro p t accepts
    rcases Dfa.state_cases d.minimize p with there | none
    · obtain ⟨m, same, -⟩ := exists_state_minimize large (Array.getElem?_eq_some_iff.1 there).1
      exact h.accept m t (same ▸ accepts)
    · rw [none] at accepts
      cases accepts

/-- Minimized or not, the lexer of a grammar has its numbers in range. -/
theorem lexer_indexed (g : Grammar) (minimize : Bool) :
    (if minimize then (lexerNfa g).1.toDfa.minimize else (lexerNfa g).1.toDfa).Indexed
      g.tokens := by
  rw [lexerNfa_eq_ofTokens]
  cases minimize with
  | false => exact toDfa_indexed g.tokens
  | true => exact minimize_indexed (toDfa_indexed g.tokens)

end Lalr.Lexer
