import Lalr.Proofs.Emit.Search
import Lalr.Proofs.Emit.Template
import Lalr.Proofs.Grammar.Contiguous
import Lalr.Proofs.Run.Gating
import Lalr.Proofs.Table.Indexed

/-! The numbers in an emitted parser. Its arrays list what was inserted in the order of insertion
and leave out the identifiers; still, what stands at the number of a state, a rule, a symbol or a
byte belongs to it, and no number that is written anywhere points outside of its array. -/
namespace Lalr.Emit

section Places

variable {κ α β : Type} [DecidableEq κ] {m : OrderedMap κ α} {number : κ → Nat} {id : α → κ}
  {value : α → β} {xs : List β} {k : κ} {a : α}

/-- At the number of each key stands what belongs to its entry, and every place is that of a
key. -/
structure Places (number : κ → Nat) (value : α → β) (m : OrderedMap κ α) (xs : List β) : Prop where
  entry : ∀ k a, m.get? k = some a → xs[number k]? = some (value a)
  onto : ∀ i < xs.length, ∃ k a, m.get? k = some a ∧ number k = i

theorem Places.lt (h : Places number value m xs) (there : k ∈ m.keys) : number k < xs.length := by
  obtain ⟨a, entry⟩ := OrderedMap.mem_keys_iff.1 there
  exact (List.getElem?_eq_some_iff.1 (h.entry k a entry)).1

theorem places_of_inOrder (h : m.InOrder number id 0) (value : α → β) :
    Places number value m (m.values.map value) where
  entry k a there := by rw [List.getElem?_map, h.getElem?_values there, Option.map_some]
  onto i small := by
    rw [List.length_map, OrderedMap.values, List.length_map] at small
    exact h.exists_of_lt small

/-- There is an arm for each entry that has code, and it has the number of the entry. -/
theorem exists_arms (h : m.InOrder number id 0) (value : α → β) (comment : α → String)
    (action : α → Option String) : ∃ arms : List (α × String),
    String.join (m.values.filterMap fun a =>
      (action a).map (Parts.arm (comment a) (number (id a)))) =
        String.join (arms.map fun e => Parts.arm (comment e.1) (number (id e.1)) e.2) ∧
    ∀ e ∈ arms, action e.1 = some e.2 ∧
      (m.values.map value)[number (id e.1)]? = some (value e.1) := by
  refine ⟨m.values.filterMap fun a => (action a).map (a, ·), ?_, ?_⟩
  · rw [List.map_filterMap]
    simp only [Option.map_map]
    rfl
  · intro e member
    obtain ⟨a, inValues, made⟩ := List.mem_filterMap.1 member
    obtain ⟨code, runs, rfl⟩ := Option.map_eq_some_iff.1 made
    obtain ⟨k, entry⟩ := OrderedMap.mem_values_iff.1 inValues
    refine ⟨runs, ?_⟩
    rw [h.known k a entry]
    exact (places_of_inOrder h value).entry k a entry

end Places

/-- What stands in the arrays at a number belongs to what has the number. -/
structure Parts.Indexes (p : Parts) (A : TableArrays) (L : LexerArrays) (N : LabelArrays) :
    Prop where
  actions : List.Forall₂ (fun cells row => Lists cells row.actions) A.actions p.table.rows.toList
  gotos : List.Forall₂ (fun cells row => Lists cells row.gotos) A.gotos p.table.rows.toList
  defaultReduce : A.defaultReduce = p.table.rows.toList.map (·.defaultReduce)
  action : ∀ (i : Nat) row, p.table.rows[i]? = some row →
    ∀ t, A.action? i t = some (row.action true t)
  goto : ∀ (i : Nat) row, p.table.rows[i]? = some row → ∀ n, A.goto? i n = some (row.gotos.get? n)
  rules : Places (·.raw.toNat) (fun rule => (rule.left, rule.right.size)) p.grammar.rules A.rules
  terminals : Places (·.raw.toNat) Terminal.name p.grammar.terminals N.terminals
  nonterminals : Places (·.raw.toNat) Nonterminal.name p.grammar.nonterminals N.nonterminals
  byteClasses : L.byteClasses.length = 256 ∧
    ∀ b : UInt8, L.byteClasses[b.toNat]? = some (p.dfa.classes.get b)
  transitions : List.Forall₂ (fun cells s => Lists cells s.transitions) L.transitions
    p.dfa.states.toList
  accept : L.accept = p.dfa.states.toList.map (·.accept)
  next : ∀ (i : Nat) s, p.dfa.states[i]? = some s → ∀ b, L.next? i b = some (p.dfa.next i b)

/-- Every number in the arrays points into the array that it is used for. The first state of the
parser and that of the lexer have number 0. -/
structure InRange (classes : Nat) (A : TableArrays) (L : LexerArrays) (N : LabelArrays) :
    Prop where
  states : 0 < A.actions.length ∧ A.gotos.length = A.actions.length ∧
    A.defaultReduce.length = A.actions.length
  actions : ∀ cells ∈ A.actions, ∀ t action, (t, action) ∈ cells →
    t.raw.toNat < N.terminals.length ∧ (∀ i, action = .shift i → i < A.actions.length) ∧
      ∀ r, action = .reduce r → r.raw.toNat < A.rules.length
  gotos : ∀ cells ∈ A.gotos, ∀ n i, (n, i) ∈ cells →
    n.raw.toNat < N.nonterminals.length ∧ i < A.actions.length
  defaultReduce : ∀ r, some r ∈ A.defaultReduce → r.raw.toNat < A.rules.length
  rules : ∀ n l, (n, l) ∈ A.rules → n.raw.toNat < N.nonterminals.length
  byteClasses : ∀ k ∈ L.byteClasses, k < classes
  lexerStates : 0 < L.transitions.length ∧ L.accept.length = L.transitions.length
  transitions : ∀ cells ∈ L.transitions, ∀ k j, (k, j) ∈ cells →
    k < classes ∧ j < L.transitions.length
  accept : ∀ t, some t ∈ L.accept → t.raw.toNat < N.terminals.length

/-- In every text that is rendered from a template, this value is read where the template has the
placeholder. -/
def Parts.Shows (p : Parts) (q : Placeholder) (r : Reader α) (a : α) : Prop :=
  ∀ template front back, segments template.toList = front ++ .placeholder q :: back →
    ∃ text, p.render template = String.join (front.map p.segmentText) ++ text ++
      String.join (back.map p.segmentText) ∧ r.value? text = some a

/-- What is emitted, for the default template and for every other, reads as these arrays, as
reserved terminals, and as arms that have the numbers of what they are about. -/
structure Parts.Emits (p : Parts) (A : TableArrays) (L : LexerArrays) (N : LabelArrays) :
    Prop where
  default : ∀ q, ∃ front back, segments defaultTemplate.toList = front ++ .placeholder q :: back
  tables : p.Shows .tables Reader.tables A
  dfa : p.Shows .dfa Reader.lexer L
  labels : p.Shows .labels Reader.labels N
  errorToken : p.Shows .errorToken Reader.terminal .error
  endOfInput : p.Shows .endOfInput Reader.terminal .endOfInput
  whitespace : p.Shows .whitespace Reader.terminal .whitespace
  reserved : ∀ t ∈ [TerminalId.error, .endOfInput, .whitespace], t.raw.toNat < N.terminals.length
  terminalActions : ∃ arms : List (Terminal × String),
    p.expand .terminalActions = String.join (arms.map fun e => arm e.1.name e.1.id.raw.toNat e.2) ∧
    ∀ e ∈ arms, e.1.action = some e.2 ∧ N.terminals[e.1.id.raw.toNat]? = some e.1.name
  actions : ∃ arms : List (Rule × String),
    p.expand .actions = String.join (arms.map fun e =>
      arm (p.grammar.ruleText e.1) e.1.id.raw.toNat e.2) ∧
    ∀ e ∈ arms, e.1.action = some e.2 ∧
      A.rules[e.1.id.raw.toNat]? = some (e.1.left, e.1.right.size)

/-- Parts that fit together: everything that one of them mentions is in another. -/
structure Parts.Proper (p : Parts) : Prop where
  contiguous : p.grammar.Contiguous
  closed : p.grammar.Closed
  reserved : ∀ t ∈ [TerminalId.error, .endOfInput, .whitespace], t ∈ p.grammar.terminals.keys
  states : 0 < p.table.rows.size ∧ p.table.rows.size ≤ UInt16.size
  rows : ∀ row ∈ p.table.rows.toList, row.Indexed p.grammar p.table.rows.size
  dfa : p.dfa.Indexed p.grammar.tokens

namespace Parts

variable {p : Parts}

/-- What a placeholder is expanded to is what stands in its place. -/
theorem shows_of_value? {q : Placeholder} {r : Reader α} {a : α}
    (read : r.value? (p.expand q) = some a) : p.Shows q r a := fun _ _ _ split =>
  ⟨p.expand q, render_of_placeholder split, read⟩

theorem forall₂_map {σ τ : Type} {R : τ → σ → Prop} {f : σ → τ} (h : ∀ x, R (f x) x)
    (xs : List σ) : List.Forall₂ R (xs.map f) xs := by
  rw [List.forall₂_map_left_iff, List.forall₂_same]
  exact fun x _ => h x

namespace Proper

theorem narrow (h : p.Proper) : Narrow p.table := by
  intro row member
  have indexed := h.rows row member
  constructor
  · intro e inCells i eq
    have there := ((lists_sortKeys row.actions).entries e.1 e.2).1 inCells
    exact (indexed.shift e.1 i (eq ▸ there)).trans_le h.states.2
  · intro e inCells
    have there := ((lists_sortKeys row.gotos).entries e.1 e.2).1 inCells
    exact (indexed.goto e.1 e.2 there).2.trans_le h.states.2

theorem indexes (h : p.Proper) : p.Indexes p.tableArrays p.lexerArrays p.labelArrays where
  actions := forall₂_map (fun row => lists_sortKeys row.actions) _
  gotos := forall₂_map (fun row => lists_sortKeys row.gotos) _
  defaultReduce := rfl
  action _ _ := action?_eq
  goto _ _ := goto?_eq
  rules := places_of_inOrder h.contiguous.rules _
  terminals := places_of_inOrder h.contiguous.terminals _
  nonterminals := places_of_inOrder h.contiguous.nonterminals _
  byteClasses := by
    refine ⟨by simp [lexerArrays, Lexer.allBytes], fun b => ?_⟩
    rw [lexerArrays, List.getElem?_map, Lexer.ByteClasses.getElem?_allBytes, Option.map_some]
  transitions := forall₂_map (fun s => lists_sortKeys s.transitions) _
  accept := rfl
  next _ _ := next?_eq

theorem inRange (h : p.Proper) :
    InRange p.dfa.classes.size p.tableArrays p.lexerArrays p.labelArrays := by
  have indexes := h.indexes
  have rows : p.tableArrays.actions.length = p.table.rows.size := by simp [tableArrays]
  have states : p.lexerArrays.transitions.length = p.dfa.states.size := by simp [lexerArrays]
  have patterned (t : TerminalId) (accepted : ∃ q ∈ p.grammar.tokens, q.terminal = t) :
      t ∈ p.grammar.terminals.keys := by
    obtain ⟨q, member, rfl⟩ := accepted
    exact h.closed.patterned q member
  constructor
  case states =>
    rw [rows]
    exact ⟨h.states.1, by simp [tableArrays], by simp [tableArrays]⟩
  case actions =>
    intro cells member t action inCells
    obtain ⟨row, inRows, rfl⟩ := List.mem_map.1 member
    have there := ((lists_sortKeys row.actions).entries t action).1 inCells
    have indexed := h.rows row inRows
    refine ⟨indexes.terminals.lt (indexed.lookahead t action there), fun i eq => ?_, fun r eq => ?_⟩
    · rw [rows]
      exact indexed.shift t i (eq ▸ there)
    · exact indexes.rules.lt (indexed.reduce t r (eq ▸ there))
  case gotos =>
    intro cells member n i inCells
    obtain ⟨row, inRows, rfl⟩ := List.mem_map.1 member
    have there := ((lists_sortKeys row.gotos).entries n i).1 inCells
    obtain ⟨declared, small⟩ := (h.rows row inRows).goto n i there
    rw [rows]
    exact ⟨indexes.nonterminals.lt declared, small⟩
  case defaultReduce =>
    intro r member
    obtain ⟨row, inRows, chosen⟩ := List.mem_map.1 member
    exact indexes.rules.lt ((h.rows row inRows).default r chosen)
  case rules =>
    intro n l member
    obtain ⟨rule, inRules, eq⟩ := List.mem_map.1 member
    cases eq
    exact indexes.nonterminals.lt (h.closed.wellFormed.left_declared rule inRules)
  case byteClasses =>
    intro k member
    obtain ⟨b, -, rfl⟩ := List.mem_map.1 member
    exact List.mem_range.1 (h.dfa.classes b)
  case lexerStates =>
    rw [states]
    exact ⟨h.dfa.start, by simp [lexerArrays]⟩
  case transitions =>
    intro cells member k j inCells
    obtain ⟨s, inStates, rfl⟩ := List.mem_map.1 member
    obtain ⟨i, rfl⟩ := Lexer.Dfa.exists_state_of_mem inStates
    have there := ((lists_sortKeys (p.dfa.state i).transitions).entries k j).1 inCells
    rw [states]
    exact ⟨h.dfa.keys i k j there, h.dfa.targets i k j there⟩
  case accept =>
    intro t member
    obtain ⟨s, inStates, accepts⟩ := List.mem_map.1 member
    obtain ⟨i, rfl⟩ := Lexer.Dfa.exists_state_of_mem inStates
    exact indexes.terminals.lt (patterned t (h.dfa.accept i t accepts))

theorem emits (h : p.Proper) : p.Emits p.tableArrays p.lexerArrays p.labelArrays where
  default := exists_split_default
  tables := shows_of_value? (value?_tables h.narrow)
  dfa := shows_of_value? value?_dfaTables
  labels := shows_of_value? value?_labels
  errorToken := shows_of_value? (Reader.Reads.terminal .error).value?_eq
  endOfInput := shows_of_value? (Reader.Reads.terminal .endOfInput).value?_eq
  whitespace := shows_of_value? (Reader.Reads.terminal .whitespace).value?_eq
  reserved t member := h.indexes.terminals.lt (h.reserved t member)
  terminalActions := exists_arms h.contiguous.terminals _ _ _
  actions := exists_arms h.contiguous.rules _ _ _

end Proper
end Parts

variable {g : Grammar} {minimize : Bool} {o : Output}

/-- A successful run yields parts that fit together. -/
theorem proper_of_isSuccess (defined : g.DefinedWithin) (exit : Exit g minimize o)
    (success : o.isSuccess = true) :
    ∃ a dfa, o.automaton = some a ∧ o.table = some (.ofAutomaton g a) ∧ o.dfa = some dfa ∧
      Parts.Proper ⟨g, .ofAutomaton g a, dfa⟩ := by
  obtain ⟨a, clean, built, automaton, table, dfa⟩ := exit.of_isSuccess success
  have closed := defined.closed
  have accept := Integrity.start_isSome clean
  have lalr := Automaton.construct_isLALR closed.wellFormed accept built
  have rows : (ParseTable.ofAutomaton g a).rows.size = a.states.size := Array.size_map ..
  refine ⟨a, _, automaton, table, dfa, defined.contiguous, closed, defined.reserved, ?_, ?_, ?_⟩
  · rw [rows]
    exact Automaton.size_states closed.wellFormed accept built
  · intro row member
    rw [rows]
    obtain ⟨s, inStates, rfl⟩ := Array.mem_map.1 (Array.mem_toList_iff.1 member)
    obtain ⟨i, state⟩ := Array.getElem?_of_mem inStates
    exact lalr.row_indexed closed accept state
  · exact Lexer.lexer_indexed g minimize

/-- As long as the identifiers have not run out, the arrays of a parser that a successful run
yields can be indexed by the numbers of states, rules, symbols and bytes. -/
theorem generate_indexed (defined : g.DefinedWithin)
    (success : (generate g minimize).isSuccess = true) :
    ∃ a dfa A L N, (generate g minimize).automaton = some a ∧
      (generate g minimize).table = some (.ofAutomaton g a) ∧
      (generate g minimize).dfa = some dfa ∧
      Parts.Emits ⟨g, .ofAutomaton g a, dfa⟩ A L N ∧
      Parts.Indexes ⟨g, .ofAutomaton g a, dfa⟩ A L N ∧ InRange dfa.classes.size A L N := by
  obtain ⟨a, dfa, automaton, table, isDfa, proper⟩ :=
    proper_of_isSuccess defined (generate_exit g minimize) success
  exact ⟨a, dfa, _, _, _, automaton, table, isDfa, proper.emits, proper.indexes, proper.inRange⟩

/-- In the arrays for ambiguous sums the label 4 is that of `PLUS`, and the rule 1 has three
symbols. -/
theorem generate_indexed_ambiguousSums : ∃ g,
    (Builder.initial.declareAll Builder.ambiguousSums).2.finish = g ∧ g.DefinedWithin ∧
    (generate g true).isSuccess = true ∧ ∃ a dfa A L N,
      (generate g true).table = some (.ofAutomaton g a) ∧
      Parts.Emits ⟨g, .ofAutomaton g a, dfa⟩ A L N ∧ InRange dfa.classes.size A L N ∧
      N.terminals[4]? = some "PLUS" ∧ A.rules[1]? = some (⟨1⟩, 3) := by
  have within : Declaration.Within (Builder.initial.accepted Builder.ambiguousSums) :=
    ⟨by decide +kernel, by decide +kernel, by decide +kernel⟩
  have success : (generate (Builder.initial.declareAll Builder.ambiguousSums).2.finish
      true).isSuccess = true := by decide +kernel
  have plus : (Builder.initial.declareAll Builder.ambiguousSums).2.finish.terminals.get? ⟨4⟩ =
      some ⟨⟨4⟩, some "PLUS", none, none⟩ := by decide +kernel
  have sum : (Builder.initial.declareAll Builder.ambiguousSums).2.finish.rules.get? ⟨1⟩ =
      some ⟨⟨1⟩, ⟨1⟩, #[.nonterminal ⟨1⟩, .terminal ⟨4⟩, .nonterminal ⟨1⟩], none, none⟩ := by
    decide +kernel
  obtain ⟨a, dfa, A, L, N, -, table, -, emits, indexes, inRange⟩ :=
    generate_indexed ⟨_, within, rfl⟩ success
  refine ⟨_, rfl, ⟨_, within, rfl⟩, success, a, dfa, A, L, N, table, emits, inRange, ?_, ?_⟩
  · exact indexes.terminals.entry ⟨4⟩ _ plus
  · exact indexes.rules.entry ⟨1⟩ _ sum

end Lalr.Emit
