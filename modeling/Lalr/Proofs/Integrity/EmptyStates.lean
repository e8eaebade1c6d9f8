import Lalr.Proofs.Automaton.Occurrence
import Lalr.Proofs.Driver.Defaults
import Lalr.Proofs.Driver.Prefixes

/-! Where reachable nonterminals are productive, no state is empty. What stands behind a
nonterminal derives terminals, so that the rules of the nonterminal have lookaheads; and an item
with a lookahead is gone on with or is finished. -/
namespace Lalr

open Grammar LookaheadSet Driver

variable {g : Grammar} {a : Automaton} {γ : List Symbol} {i : Item} {s : State} {k : Nat}

/-- Items have lookaheads: the end of the input, what begins the text behind a nonterminal, or,
if that text is empty, the lookaheads of the item in front of it. -/
theorem Grammar.exists_lookahead (wf : g.WellFormed) (accept : g.start.isSome)
    (productive : ∀ m, g.Reachable m → g.Productive m) (h : (g.canonical γ).core i) :
    ∃ t, (g.canonical γ).lookahead i t := by
  refine core_induction (P := fun γ i => ∃ t, (g.canonical γ).lookahead i t)
    ?initial ?expand ?advance h
  case initial => exact ⟨_, lookahead_initial⟩
  case expand =>
    rintro γ j rule ⟨t, lookahead⟩ member next
    have core := supported_canonical g γ j t lookahead
    have behind : ∀ m, .nonterminal m ∈ j.behind g → g.Productive m := by
      intro m there
      refine productive m (reachable_of_rest wf accept core ?_)
      rw [Item.rest_of_next next]
      exact List.mem_cons_of_mem _ there
    obtain ⟨w, derived⟩ := exists_derives_terminals behind
    cases w with
    | nil => exact ⟨t, lookahead_follow lookahead member next derived⟩
    | cons u w => exact ⟨u, lookahead_first core member next ⟨_, derived⟩⟩
  case advance =>
    rintro γ j X ⟨t, lookahead⟩ next
    exact ⟨t, lookahead_moved lookahead next⟩

namespace Automaton.IsLALR

/-- Every item of every state has a lookahead. -/
theorem exists_lookahead (lalr : a.IsLALR g) (wf : g.WellFormed) (accept : g.start.isSome)
    (productive : ∀ m, g.Reachable m → g.Productive m) (state : a.states[k]? = some s)
    {lookaheads : TerminalSet} (entry : s.items.get? i = some lookaheads) :
    ∃ t, t ∈ lookaheads := by
  obtain ⟨γ, path⟩ := lalr.reached k s state
  have core := (lalr.items γ k s path state i).1 (OrderedMap.mem_keys_of_get? entry)
  obtain ⟨t, lookahead⟩ := Grammar.exists_lookahead wf accept productive core
  have member := (lalr.lookaheads k s state i t).2 ⟨γ, path, lookahead⟩
  rw [entry] at member
  exact ⟨t, member⟩

/-- A state in which an item has a lookahead has a cell for what the item goes on with, or, if it
is finished, for the lookahead. -/
theorem exists_cell (lalr : a.IsLALR g) {t : TerminalId} (path : a.walk γ = some k)
    (state : a.states[k]? = some s) (lookahead : (g.canonical γ).lookahead i t) :
    (∃ u, u ∈ (s.row g).actions.keys) ∨ ∃ n, n ∈ (s.row g).gotos.keys := by
  have core := supported_canonical g γ i t lookahead
  cases next : i.nextSymbol g with
  | none => exact .inl ⟨t, Answers.cell lalr path state (.inr ⟨i, lookahead, next⟩)⟩
  | some X =>
    cases X with
    | terminal u => exact .inl ⟨u, Answers.cell lalr path state (.inl ⟨i, core, next⟩)⟩
    | nonterminal n =>
      obtain ⟨l, longer⟩ := (lalr.path _).2 ⟨_, core_moved core next⟩
      rw [walk_concat, path, Option.bind_some, follow, state] at longer
      exact .inr ⟨n, OrderedMap.mem_keys_of_get? longer⟩

end Automaton.IsLALR

namespace ParseTable

variable {table : ParseTable}

/-- A state is reported if it has neither actions nor gotos. -/
theorem checkEmptyStates_reports_iff : some k ∈ table.checkEmptyStates.map (·.state) ↔
    ∃ row, table.rows[k]? = some row ∧ row.actions.isEmpty ∧ row.gotos.isEmpty := by
  simp only [checkEmptyStates, List.map_map, List.mem_map, List.mem_filter, Prod.exists,
    List.mem_zipIdx_iff_getElem?, Array.getElem?_toList, Function.comp_apply, Option.some.injEq,
    Bool.and_eq_true]
  constructor
  · rintro ⟨row, j, ⟨there, both⟩, rfl⟩
    exact ⟨row, there, both⟩
  · rintro ⟨row, there, both⟩
    exact ⟨row, k, ⟨there, both⟩, rfl⟩

theorem getElem?_rows_clear (states : List Nat) : (table.clear states).rows[k]? =
    table.rows[k]?.map fun row =>
      if k ∈ states then { row with actions := ∅, gotos := ∅ } else row := by
  rw [clear]
  dsimp only
  generalize table.rows = rows
  induction states generalizing rows with
  | nil => simp
  | cons j rest ih =>
    rw [List.foldl_cons, ih, Array.getElem?_modify]
    by_cases same : j = k
    · subst same
      cases rows[j]? <;> simp
    · rw [if_neg same]
      simp [Ne.symm same]

/-- A table that has lost the rows of some states is reported to be empty there, besides where it
was empty before. -/
theorem checkEmptyStates_clear_iff (states : List Nat) :
    some k ∈ (table.clear states).checkEmptyStates.map (·.state) ↔
      k ∈ states ∧ k < table.rows.size ∨ some k ∈ table.checkEmptyStates.map (·.state) := by
  rw [checkEmptyStates_reports_iff, checkEmptyStates_reports_iff, getElem?_rows_clear]
  by_cases cleared : k ∈ states
  · cases there : table.rows[k]? with
    | none =>
      have outside := Array.getElem?_eq_none_iff.1 there
      simp [Nat.not_lt_of_le outside]
    | some row =>
      have inside := (Array.getElem?_eq_some_iff.1 there).1
      simp only [cleared, inside, Option.map_some, if_true, and_self, true_or, iff_true]
      exact ⟨_, rfl, rfl, rfl⟩
  · simp [cleared]

/-- Nothing is reported of a table whose rows all have cells. -/
theorem checkEmptyStates_eq_nil
    (filled : ∀ row ∈ table.rows, (∃ t, t ∈ row.actions.keys) ∨ ∃ n, n ∈ row.gotos.keys) :
    table.checkEmptyStates = [] := by
  rw [checkEmptyStates, List.map_eq_nil_iff, List.filter_eq_nil_iff]
  rintro ⟨row, j⟩ member both
  have present : row ∈ table.rows := by
    have := List.fst_mem_of_mem_zipIdx member
    simpa using this
  simp only [OrderedMap.isEmpty, Bool.and_eq_true, List.isEmpty_iff] at both
  rcases filled row present with ⟨t, there⟩ | ⟨n, there⟩
  · simp [OrderedMap.keys, both.1] at there
  · simp [OrderedMap.keys, both.2] at there

/-- If what can be reached can derive terminals, then every item of every state has a lookahead,
every row has an action or a goto, and no state is reported as empty. -/
theorem no_empty_states (defined : g.Defined) (accept : g.start.isSome)
    (built : Automaton.construct g (.compute g) = .ok a)
    (productive : ∀ m, g.Reachable m → g.Productive m) :
    (∀ s ∈ a.states, ∀ i lookaheads, s.items.get? i = some lookaheads → ∃ t, t ∈ lookaheads) ∧
    (∀ row ∈ (ofAutomaton g a).rows,
      (∃ t, t ∈ row.actions.keys) ∨ ∃ n, n ∈ row.gotos.keys) ∧
    (ofAutomaton g a).checkEmptyStates = [] := by
  have wf := defined.wellFormed
  have lalr := Automaton.construct_isLALR wf accept built
  have filled : ∀ row ∈ (ofAutomaton g a).rows,
      (∃ t, t ∈ row.actions.keys) ∨ ∃ n, n ∈ row.gotos.keys := by
    intro row member
    obtain ⟨s, inStates, rfl⟩ := Array.mem_map.1 member
    obtain ⟨k, state⟩ := Array.getElem?_of_mem inStates
    obtain ⟨γ, path⟩ := lalr.reached k s state
    obtain ⟨i, core⟩ := (lalr.path γ).1 ⟨k, path⟩
    obtain ⟨t, lookahead⟩ := Grammar.exists_lookahead wf accept productive core
    exact lalr.exists_cell path state lookahead
  refine ⟨fun s inStates i lookaheads entry => ?_, filled, checkEmptyStates_eq_nil filled⟩
  obtain ⟨k, state⟩ := Array.getElem?_of_mem inStates
  exact lalr.exists_lookahead wf accept productive state entry

theorem no_empty_states_nestedPairs : ∃ g a, Grammar.define nestedPairs = .ok g ∧
    Automaton.construct g (.compute g) = .ok a ∧ g.start = some ⟨1⟩ ∧
    (∀ m, g.Reachable m → g.Productive m) ∧ (ofAutomaton g a).checkEmptyStates = [] := by
  obtain ⟨g, a, defined, start, -, empty, built⟩ := Automaton.nestedPairs_constructed
  have productive := nestedPairs_productive defined built empty
  obtain ⟨-, -, none⟩ := no_empty_states (.steps defined (by decide)) (by rw [start]; rfl) built
    productive
  exact ⟨g, a, defined, built, start, productive, none⟩

end ParseTable
end Lalr
