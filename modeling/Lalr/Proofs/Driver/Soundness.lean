import Lalr.Proofs.Driver.Machine
import Lalr.Proofs.Grammar.Defined

/-! What the parser accepts is a sentence, by a tree whose rules are those reduced by. The states
on the stack lie on a path whose symbols are the roots of trees for what has been read, however
conflicts are settled and whether or not default reductions are taken. -/
namespace Lalr.Driver

open Grammar

structure Fits (g : Grammar) (a : Automaton) (table : ParseTable) : Prop where
  state : ∀ (i : Nat) row, table.rows[i]? = some row →
    ∃ s, a.states[i]? = some s ∧ row.Chooses g s
  row : ∀ (i : Nat) s, a.states[i]? = some s →
    ∃ row, table.rows[i]? = some row ∧ row.Chooses g s

theorem fits_ofAutomaton (g : Grammar) (a : Automaton) : Fits g a (.ofAutomaton g a) where
  state i row there := by
    rw [ParseTable.ofAutomaton, Array.getElem?_map] at there
    obtain ⟨s, state, rfl⟩ := Option.map_eq_some_iff.1 there
    exact ⟨s, state, s.row_chooses g⟩
  row i s state := ⟨_, ParseTable.rows_ofAutomaton state, s.row_chooses g⟩

variable {g : Grammar} {table : ParseTable} {a : Automaton} {defaults : Bool}
  {c c' : Configuration} {i : Nat} {s : State} {above : List Nat} {symbols : List Symbol}
  {trees : List Tree} {w : List TerminalId} {t : TerminalId} {r : RuleId}

/-- Trees for what has been read, the last first, by the rules reduced by so far. -/
structure Traced (g : Grammar) (a : Automaton) (w : List TerminalId) (c : Configuration)
    (trees : List Tree) : Prop where
  spells : Spells a c.above (trees.map Tree.root)
  valid : Tree.AllValid g trees
  yields : Tree.yields trees.reverse ++ c.input = w
  rules : Tree.postOrders trees.reverse = c.reduced

theorem traced_initial : Traced g a w (.initial w) [] where
  spells := trivial
  valid := trivial
  yields := rfl
  rules := rfl

/-- A rule is finished in the last state only if its right-hand side is on top of the stack. -/
theorem finished_split (wf : g.WellFormed) (accept : g.start.isSome) (lalr : a.IsLALR g)
    (spells : Spells a above symbols) (state : a.states[above.head?.getD 0]? = some s)
    (finished : s.Finished g r t) : ∃ rule back, g.rule? r = some rule ∧
      symbols = rule.right.toList.reverse ++ back ∧ (g.canonical back.reverse).core ⟨r, 0⟩ := by
  obtain ⟨i, rfl, ended, member⟩ := finished
  have inState : i ∈ s.items.keys := s.items.supported i t member
  have core := (lalr.items _ _ s spells.walk state i).1 inState
  obtain ⟨δ, rule, known, le, split, start⟩ := core_split wf accept core
  rw [Item.nextSymbol, known, Option.bind_some, Array.getElem?_eq_none_iff] at ended
  rw [List.take_of_length_le (by simpa using ended)] at split
  refine ⟨rule, δ.reverse, known, ?_, by rwa [List.reverse_reverse]⟩
  rw [← List.reverse_append, ← split, List.reverse_reverse]

/-- A reduction that is a candidate is carried out: its right-hand side is on top of the stack,
and the state below has an edge for its left-hand side. -/
theorem reduce_spells (wf : g.WellFormed) (accept : g.start.isSome) (lalr : a.IsLALR g)
    (fits : Fits g a table) (spells : Spells a c.above symbols)
    (state : a.states[c.top]? = some s) (finished : s.Finished g r t) (other : r ≠ .accept) :
    ∃ rule back k, g.rule? r = some rule ∧ symbols = rule.right.toList.reverse ++ back ∧
      (g.canonical back.reverse).core ⟨r, 0⟩ ∧
      Spells a (k :: c.above.drop rule.right.size) (.nonterminal rule.left :: back) ∧
      reduce g table r c =
        .next ⟨k :: c.above.drop rule.right.size, c.input, c.reduced ++ [r]⟩ := by
  obtain ⟨rule, back, known, rfl, first⟩ := finished_split wf accept lalr spells state finished
  have enough : ¬ c.above.length < rule.right.size := by
    have := spells.length_eq
    simp only [List.length_append, List.length_reverse, Array.length_toList] at this
    omega
  have below : Spells a (c.above.drop rule.right.size) back := by simpa using spells.drop
  have id : rule.id = r := wf.rule_id r rule known
  obtain ⟨j, core, next⟩ := core_demanded wf (mem_rules known) (id ▸ other) (id.symm ▸ first)
  obtain ⟨k, path⟩ := (lalr.path _).2 ⟨_, core_moved core next⟩
  have edge := path
  rw [Automaton.walk_concat, below.walk, Option.bind_some] at edge
  obtain ⟨s', state', edge'⟩ := Option.bind_eq_some_iff.1 edge
  obtain ⟨row, there, chooses⟩ := fits.row _ _ state'
  have goto : (table.rows[(c.above.drop rule.right.size).head?.getD 0]?.bind
      fun row => row.gotos.get? rule.left) = some k := by
    simp only [there, Option.bind_some, chooses.gotos, edge']
  refine ⟨rule, back, k, known, rfl, first, ⟨?_, below⟩, ?_⟩
  · rw [List.reverse_cons]
    exact path
  · unfold reduce
    rw [known]
    dsimp only [Configuration.top]
    simp only [if_neg enough, goto]

/-- A reduction that is a candidate keeps the trees. -/
theorem reduce_traced (wf : g.WellFormed) (accept : g.start.isSome) (lalr : a.IsLALR g)
    (fits : Fits g a table) (traced : Traced g a w c trees)
    (state : a.states[c.top]? = some s) (finished : s.Finished g r t) (other : r ≠ .accept) :
    ∃ c' trees', reduce g table r c = .next c' ∧ Traced g a w c' trees' := by
  obtain ⟨rule, back, k, known, split, -, spells, move⟩ :=
    reduce_spells wf accept lalr fits traced.spells state finished other
  obtain ⟨front, rest, rfl, roots, rfl⟩ := List.map_eq_append_iff.1 split
  have id : rule.id = r := wf.rule_id r rule known
  have valid := Tree.allValid_iff.1 traced.valid
  refine ⟨_, .node rule front.reverse :: rest, move, ?_⟩
  constructor
  case spells => exact spells
  case valid =>
    refine ⟨⟨id.symm ▸ known, ?_, ?_⟩, ?_⟩
    · simp only [List.map_reverse, roots, List.reverse_reverse]
    · refine Tree.allValid_iff.2 fun tree member => valid tree ?_
      exact List.mem_append_left _ (List.mem_reverse.1 member)
    · exact Tree.allValid_iff.2 fun tree member => valid tree (List.mem_append_right _ member)
  case yields =>
    rw [← traced.yields]
    simp [Tree.yields, Tree.yield]
  case rules =>
    rw [← traced.rules]
    simp [Tree.postOrders, Tree.postOrder, id]

/-- An edge comes from an item with the symbol behind its marker. -/
theorem core_of_edge (lalr : a.IsLALR g) {γ : List Symbol} {X : Symbol} {k : Nat}
    (path : a.walk γ = some i) (state : a.states[i]? = some s) (edge : s.next X = some k) :
    a.walk (γ ++ [X]) = some k ∧ ∃ j, (g.canonical γ).core j ∧ j.nextSymbol g = some X := by
  have longer : a.walk (γ ++ [X]) = some k := by
    rw [Automaton.walk_concat, path, Option.bind_some, Automaton.follow, state]
    exact edge
  obtain ⟨b, core⟩ := (lalr.path _).1 ⟨k, longer⟩
  obtain ⟨d, inKernel⟩ := (canonical_eq_close g _ ▸ core).exists_kernel
  rw [canonicalKernel_append] at inKernel
  obtain ⟨j, inSet, next, -⟩ := inKernel
  exact ⟨longer, j, inSet, next⟩

/-- The end of the input is not shifted. -/
theorem next_endOfInput (wf : g.WellFormed) (lalr : a.IsLALR g) (state : a.states[i]? = some s) :
    s.next (.terminal .endOfInput) = none := by
  apply Option.eq_none_iff_forall_not_mem.2
  intro k edge
  obtain ⟨γ, path⟩ := lalr.reached i s state
  obtain ⟨-, j, -, next⟩ := core_of_edge lalr path state edge
  exact next_ne_endOfInput wf next

/-- A terminal that is shifted stands in the input, behind the marker of an item. -/
theorem shift_spells (wf : g.WellFormed) (lalr : a.IsLALR g) (spells : Spells a c.above symbols)
    (state : a.states[c.top]? = some s) {k : Nat}
    (edge : s.next (.terminal c.lookahead) = some k) :
    c.input = c.lookahead :: c.input.tail ∧
      (∃ j, (g.canonical symbols.reverse).core j ∧
        j.nextSymbol g = some (.terminal c.lookahead)) ∧
      Spells a (k :: c.above) (.terminal c.lookahead :: symbols) := by
  obtain ⟨path, item⟩ := core_of_edge lalr spells.walk state edge
  refine ⟨?_, item, ?_, spells⟩
  · cases rest : c.input with
    | nil =>
      rw [Configuration.lookahead, rest, List.head?_nil, Option.getD_none,
        next_endOfInput wf lalr state] at edge
      cases edge
    | cons t rest' => simp [Configuration.lookahead, rest]
  · rw [List.reverse_cons]
    exact path

theorem accept_traced (wf : g.WellFormed) (accept : g.start.isSome) (lalr : a.IsLALR g)
    (noEnd : .endOfInput ∉ w) (traced : Traced g a w c trees) (state : a.states[c.top]? = some s)
    (finished : s.Finished g .accept c.lookahead) : c.input = [] ∧ ∃ n tree,
      g.start = some n ∧ trees = [tree] ∧ tree.root = .nonterminal n := by
  obtain ⟨n, start⟩ := Option.isSome_iff_exists.1 accept
  obtain ⟨rule, back, known, split, first⟩ :=
    finished_split wf accept lalr traced.spells state finished
  rw [wf.accept n start, Option.some.injEq] at known
  subst known
  have alone : back = [] := by
    simpa using eq_nil_of_core_initial wf accept first
  constructor
  · obtain ⟨i, isAccept, -, member⟩ := finished
    obtain ⟨γ, -, lookahead⟩ := (lalr.lookaheads _ s state i _).1 member
    have ended := lookahead_accept wf accept lookahead isAccept
    cases rest : c.input with
    | nil => rfl
    | cons u rest' =>
      refine absurd ?_ noEnd
      rw [Configuration.lookahead, rest] at ended
      rw [← traced.yields, rest, ← ended]
      simp
  · subst alone
    have roots : trees.map Tree.root = [.nonterminal n] := split
    obtain ⟨tree, rfl, root⟩ := List.map_eq_singleton_iff.1 roots
    exact ⟨n, tree, start, rfl, root⟩

theorem shift_traced (wf : g.WellFormed) (lalr : a.IsLALR g) (traced : Traced g a w c trees)
    (state : a.states[c.top]? = some s) {k : Nat}
    (edge : s.next (.terminal c.lookahead) = some k) :
    Traced g a w { c with above := k :: c.above, input := c.input.tail }
      (.leaf c.lookahead :: trees) := by
  obtain ⟨front, -, spells⟩ := shift_spells wf lalr traced.spells state edge
  constructor
  case spells => exact spells
  case valid => exact ⟨trivial, traced.valid⟩
  case yields =>
    rw [← traced.yields, front]
    simp [Tree.yields, Tree.yield]
  case rules =>
    rw [← traced.rules]
    simp [Tree.postOrders, Tree.postOrder]

/-- One step rejects, accepts a tree of the start symbol, or goes on with trees. -/
theorem step_traced (defaults : Bool) (wf : g.WellFormed) (accept : g.start.isSome) (lalr : a.IsLALR g)
    (fits : Fits g a table) (noEnd : .endOfInput ∉ w) (traced : Traced g a w c trees) :
    step g table defaults c = .rejected ∨
    (step g table defaults c = .accepted ∧ c.input = [] ∧ ∃ n tree, g.start = some n ∧
      trees = [tree] ∧ tree.root = .nonterminal n) ∨
    ∃ c' trees', step g table defaults c = .next c' ∧ Traced g a w c' trees' := by
  unfold step
  cases there : table.rows[c.top]? with
  | none => exact .inl rfl
  | some row =>
    obtain ⟨s, state, chooses⟩ := fits.state _ row there
    dsimp only
    rcases chooses.action_cases defaults c.lookahead with
      ⟨k, edge, eq⟩ | ⟨r, t, finished, other, eq⟩ | ⟨finished, eq⟩ | eq
    · rw [eq]
      refine .inr (.inr ⟨_, .leaf c.lookahead :: trees, rfl, ?_⟩)
      exact shift_traced wf lalr traced state edge
    · rw [eq]
      exact .inr (.inr (reduce_traced wf accept lalr fits traced state finished other))
    · rw [eq]
      exact .inr (.inl ⟨rfl, accept_traced wf accept lalr noEnd traced state finished⟩)
    · rw [eq]
      exact .inl rfl

/-- Trees trace every run. -/
theorem reaches_traced (wf : g.WellFormed) (accept : g.start.isSome) (lalr : a.IsLALR g)
    (fits : Fits g a table) (noEnd : .endOfInput ∉ w)
    (path : Reaches g table defaults (.initial w) c) : ∃ trees, Traced g a w c trees := by
  induction path with
  | refl => exact ⟨[], traced_initial⟩
  | tail _ move ih =>
    obtain ⟨trees, traced⟩ := ih
    rcases step_traced defaults wf accept lalr fits noEnd traced with
      eq | ⟨eq, -⟩ | ⟨c', trees', eq, traced'⟩
    · cases eq.symm.trans move
    · cases eq.symm.trans move
    · cases eq.symm.trans move
      exact ⟨trees', traced'⟩

/-- A table without rows rejects. -/
theorem step_empty (c : Configuration) :
    step g (.ofAutomaton g ⟨#[]⟩) defaults c = .rejected := by
  simp [step, ParseTable.ofAutomaton]

/-- Acceptance means that the start symbol derives the input by the rules reduced by, and no
reduction asks for more states than there are or for a goto that is missing. -/
theorem accepted_derives (defined : g.Defined) (built : Automaton.construct g (.compute g) = .ok a)
    (noEnd : .endOfInput ∉ w)
    (path : Reaches g (.ofAutomaton g a) defaults (.initial w) c) :
    (step g (.ofAutomaton g a) defaults c = .accepted → ∃ (n : NonterminalId) (tree : Tree),
      g.start = some n ∧ tree.Parses g n ∧ tree.yield = w ∧ tree.postOrder = c.reduced ∧
      g.Derives [.nonterminal n] (w.map .terminal)) ∧
    ∀ f, step g (.ofAutomaton g a) defaults c ≠ .fault f := by
  have wf := defined.wellFormed
  cases start : g.start with
  | none =>
    -- Without a start symbol there are no states, so nothing is accepted.
    have none : a = ⟨#[]⟩ := by
      rw [Automaton.construct, wf.no_accept start] at built
      exact (Except.ok.inj built).symm
    subst none
    rw [step_empty]
    exact ⟨fun h => (Outcome.noConfusion h), fun f h => Outcome.noConfusion h⟩
  | some n =>
    have accept : g.start.isSome := by rw [start]; rfl
    have lalr := Automaton.construct_isLALR wf accept built
    have fits := fits_ofAutomaton g a
    obtain ⟨trees, traced⟩ := reaches_traced wf accept lalr fits noEnd path
    rcases step_traced defaults wf accept lalr fits noEnd traced with
      eq | ⟨eq, read, m, tree, start', rfl, root⟩ | ⟨c', trees', eq, -⟩
    · rw [eq]
      exact ⟨fun h => (Outcome.noConfusion h), fun f h => Outcome.noConfusion h⟩
    · rw [eq]
      refine ⟨fun _ => ⟨m, tree, start.symm.trans start', ⟨traced.valid.1, root⟩, ?_, ?_, ?_⟩,
        fun f h => Outcome.noConfusion h⟩
      · have yields := traced.yields
        rw [read] at yields
        simpa [Tree.yields] using yields
      · simpa [Tree.postOrders] using traced.rules
      · have yields := traced.yields
        rw [read] at yields
        have derived := traced.valid.1.derives
        rw [root] at derived
        simpa [← yields, Tree.yields] using derived
    · rw [eq]
      exact ⟨fun h => (Outcome.noConfusion h), fun f h => Outcome.noConfusion h⟩

/-- The parser of nested pairs accepts `ab`, which is derived by both rules. -/
theorem accepted_derives_nestedPairs : ∃ g a c, Grammar.define nestedPairs = .ok g ∧
    Automaton.construct g (.compute g) = .ok a ∧
    Reaches g (.ofAutomaton g a) true (.initial [⟨3⟩, ⟨4⟩]) c ∧
    step g (.ofAutomaton g a) true c = .accepted ∧ c.reduced = [⟨2⟩, ⟨1⟩] ∧
    g.Derives [.nonterminal ⟨1⟩] [.terminal ⟨3⟩, .terminal ⟨4⟩] := by
  obtain ⟨g, a, defined, start, -, -, done⟩ := Automaton.nestedPairs_constructed
  have check : Automaton.passes nestedPairs (fun g a =>
      let c := run g (.ofAutomaton g a) true 10 (.initial [⟨3⟩, ⟨4⟩])
      step g (.ofAutomaton g a) true c = .accepted ∧ c.reduced = [⟨2⟩, ⟨1⟩]) = true := by
    decide +kernel
  simp only [Automaton.passes_eq defined done, decide_eq_true_eq] at check
  have path : Reaches g (.ofAutomaton g a) true (.initial [⟨3⟩, ⟨4⟩]) _ := reaches_run 10 _
  obtain ⟨n, tree, start', -, -, -, derived⟩ :=
    (accepted_derives (.steps defined (by decide)) done (by decide) path).1 check.1
  cases start.symm.trans start'
  exact ⟨g, a, _, defined, done, path, check.1, check.2, derived⟩

end Lalr.Driver
