import Lalr.Proofs.Automaton.Kernels
import Lalr.Proofs.Lookup.Table

/-! The numbers in a parse table. What a row mentions is in the grammar, or is one of the rows. -/
namespace Lalr

structure Row.Indexed (g : Grammar) (n : Nat) (row : Row) : Prop where
  lookahead : ∀ t action, row.actions.get? t = some action → t ∈ g.terminals.keys
  shift : ∀ t i, row.actions.get? t = some (.shift i) → i < n
  reduce : ∀ t r, row.actions.get? t = some (.reduce r) → r ∈ g.rules.keys
  default : ∀ r, row.defaultReduce = some r → r ∈ g.rules.keys
  goto : ∀ m i, row.gotos.get? m = some i → m ∈ g.nonterminals.keys ∧ i < n

variable {g : Grammar} {a : Automaton} {i : Nat} {s : State}

theorem Action.ofRule_ne_shift {r : RuleId} {k : Nat} : Action.ofRule r ≠ .shift k := by
  unfold Action.ofRule
  split <;> exact nofun

theorem State.Closed.rule_mem (h : s.Closed g) {r : RuleId} {t : TerminalId}
    (finished : s.Finished g r t) : r ∈ g.rules.keys := by
  obtain ⟨j, rfl, -, inSet⟩ := finished
  obtain ⟨rule, known⟩ := h.ruled j (s.items.supported j t inSet)
  exact OrderedMap.mem_keys_of_get? known

theorem Automaton.IsLALR.row_indexed (lalr : a.IsLALR g) (closed : g.Closed)
    (accept : g.start.isSome) (state : a.states[i]? = some s) :
    (s.row g).Indexed g a.states.size := by
  have inGrammar := lalr.closed closed accept state
  have chooses := s.row_chooses g
  have reduce (t : TerminalId) (r : RuleId) (there : (s.row g).actions.get? t = some (.reduce r)) :
      r ∈ g.rules.keys := by
    rcases chooses.action t _ there with ⟨k, -, eq⟩ | ⟨r', finished, eq⟩ | eq
    · cases eq
    · obtain ⟨rfl, -⟩ := Candidates.ofRule_eq_reduce eq.symm
      exact inGrammar.rule_mem finished
    · cases eq
  constructor
  case lookahead =>
    intro t action there
    rw [State.get?_row_actions] at there
    obtain ⟨c, entry, -⟩ := Option.map_eq_some_iff.1 there
    exact (inGrammar.cell entry).declared
  case shift =>
    intro t k there
    rcases chooses.action t _ there with ⟨k', edge, eq⟩ | ⟨r, -, eq⟩ | eq
    · cases eq
      exact (lalr.edge state edge).1
    · exact absurd eq.symm Action.ofRule_ne_shift
    · cases eq
  case reduce => exact reduce
  case default =>
    intro r chosen
    obtain ⟨t, there⟩ := chooses.default r chosen
    exact reduce t r there
  case goto =>
    intro m k there
    rw [chooses.gotos] at there
    obtain ⟨small, rule, inRules, inRight⟩ := lalr.edge state there
    exact ⟨(closed.wellFormed.nonterminal rule inRules m inRight).2, small⟩

/-- States are numbered with 16 bits, and there is a first one. -/
theorem Automaton.size_states (wf : g.WellFormed) (accept : g.start.isSome)
    (built : Automaton.construct g (.compute g) = .ok a) :
    0 < a.states.size ∧ a.states.size ≤ UInt16.size := by
  constructor
  · obtain ⟨s, first⟩ := (construct_isLALR wf accept built).state [] 0 rfl
    exact (Array.getElem?_eq_some_iff.1 first).1
  · obtain ⟨c, done⟩ := exists_built wf.linked (wf.acceptRule accept) wf.acceptFits built
    rw [done.size_states]
    exact done.faithful.valid.sound.limit

end Lalr
