import Lalr.Proofs.Driver.Machine
import Lalr.Proofs.Grammar.Defined

/-! Without conflicts the parser accepts every sentence, by the rules of its tree in post-order.
What carries the induction over trees is the lookahead: behind a tree stands a terminal that is
expected there, so that the table has the reductions of the tree for it. -/
namespace Lalr.Driver

open Grammar

/-- A table in which each candidate of a state is the action of its cell. -/
def Decides (g : Grammar) (a : Automaton) (table : ParseTable) : Prop :=
  ∀ (i : Nat) s, a.states[i]? = some s → ∃ row, table.rows[i]? = some row ∧ row.Decided g s

theorem decides_ofAutomaton {g : Grammar} {a : Automaton}
    (none : (ParseTable.ofAutomaton g a).conflicts = []) : Decides g a (.ofAutomaton g a) :=
  fun _ _ state => ⟨_, ParseTable.rows_ofAutomaton state,
    State.row_decided (ParseTable.conflicts_of_ofAutomaton none state)⟩

variable {g : Grammar} {table : ParseTable} {a : Automaton} {above : List Nat}
  {symbols : List Symbol} {input rest : List TerminalId} {reduced : List RuleId} {j : Item}
  {t : TerminalId} {X : Symbol} {rule : Rule}

def front (input : List TerminalId) : TerminalId := input.head?.getD .endOfInput

/-- `t` can follow the symbol behind the marker of `j`. -/
def Expected (g : Grammar) (γ : List Symbol) (j : Item) (t : TerminalId) : Prop :=
  g.First (j.behind g) t ∨ g.Nullable (j.behind g) ∧ (g.canonical γ).lookahead j t

/-- An item with `X` behind its marker has an edge for `X`. -/
theorem exists_edge (lalr : a.IsLALR g) (spells : Spells a above symbols)
    (core : (g.canonical symbols.reverse).core j) (next : j.nextSymbol g = some X) :
    ∃ s k, a.states[above.head?.getD 0]? = some s ∧ s.next X = some k ∧
      Spells a (k :: above) (X :: symbols) := by
  obtain ⟨k, path⟩ := (lalr.path _).2 ⟨_, core_moved core next⟩
  have edge := path
  rw [Automaton.walk_concat, spells.walk, Option.bind_some] at edge
  obtain ⟨s, state, follows⟩ := Option.bind_eq_some_iff.1 edge
  exact ⟨s, k, state, follows, by rwa [List.reverse_cons], spells⟩

/-- An item whose right-hand side has been read is finished in the last state. -/
theorem exists_finished (lalr : a.IsLALR g) (spells : Spells a above symbols)
    (lookahead : (g.canonical symbols.reverse).lookahead j t) (ended : j.nextSymbol g = none) :
    ∃ s, a.states[above.head?.getD 0]? = some s ∧ s.Finished g j.rule t := by
  obtain ⟨s, state⟩ := lalr.state _ _ spells.walk
  exact ⟨s, state, j, rfl, ended, (lalr.lookaheads _ s state j t).2 ⟨_, spells.walk, lookahead⟩⟩

theorem step_shift (rest : List TerminalId) (reduced : List RuleId) (lalr : a.IsLALR g)
    (decides : Decides g a table) (spells : Spells a above symbols) (core : (g.canonical symbols.reverse).core j)
    (next : j.nextSymbol g = some (.terminal t)) :
    ∃ k, Spells a (k :: above) (.terminal t :: symbols) ∧
      step g table false ⟨above, t :: rest, reduced⟩ = .next ⟨k :: above, rest, reduced⟩ := by
  obtain ⟨s, k, state, edge, longer⟩ := exists_edge lalr spells core next
  obtain ⟨row, there, decided⟩ := decides _ s state
  refine ⟨k, longer, ?_⟩
  have action : row.action false t = .shift k := Row.action_of_cell (decided.shift t k edge) _
  rw [step, Configuration.top, there]
  dsimp only [Configuration.lookahead, List.head?_cons, Option.getD_some]
  rw [action]
  rfl

/-- A finished rule is reduced by, and its left-hand side takes the place of the right-hand
side. -/
theorem step_reduce (reduced : List RuleId) (wf : g.WellFormed) (lalr : a.IsLALR g)
    (decides : Decides g a table) {states : List Nat} (member : rule ∈ g.rules.values) (other : rule.id ≠ .accept)
    (length : states.length = rule.right.size)
    (spells : Spells a (states ++ above) (rule.right.toList.reverse ++ symbols))
    (lookahead : (g.canonical (rule.right.toList.reverse ++ symbols).reverse).lookahead
      ⟨rule.id, rule.right.size⟩ (front input))
    (core : (g.canonical symbols.reverse).core j)
    (next : j.nextSymbol g = some (.nonterminal rule.left)) :
    ∃ k, Spells a (k :: above) (.nonterminal rule.left :: symbols) ∧
      step g table false ⟨states ++ above, input, reduced⟩ =
        .next ⟨k :: above, input, reduced ++ [rule.id]⟩ := by
  have known : g.rule? rule.id = some rule := wf.rule?_id member
  have ended : (⟨rule.id, rule.right.size⟩ : Item).nextSymbol g = none := by
    simp only [Item.nextSymbol, known, Option.bind_some, Array.getElem?_eq_none (Nat.le_refl _)]
  have below : Spells a above symbols := by
    have dropped := spells.drop
    rwa [List.length_reverse, Array.length_toList, ← length, List.drop_left] at dropped
  obtain ⟨s, state, finished⟩ := exists_finished lalr spells lookahead ended
  obtain ⟨row, there, decided⟩ := decides _ s state
  obtain ⟨s', k, state', edge, longer⟩ := exists_edge lalr below core next
  obtain ⟨row', there', decided'⟩ := decides _ s' state'
  refine ⟨k, longer, ?_⟩
  have action : row.action false (front input) = .reduce rule.id := by
    simp only [Row.action_of_cell (decided.finished _ _ finished), Action.ofRule, if_neg other]
  have enough : ¬ (states ++ above).length < rule.right.size := by
    rw [List.length_append]
    omega
  rw [step, Configuration.top, there]
  dsimp only [Configuration.lookahead]
  rw [front] at action
  rw [action]
  dsimp only [reduce]
  rw [known]
  dsimp only
  rw [if_neg enough, ← length, List.drop_left]
  dsimp only [Configuration.top]
  simp only [there', Option.bind_some, decided'.gotos, edge]

theorem behind_eq (known : g.rule? j.rule = some rule) :
    j.behind g = rule.right.toList.drop (j.marker + 1) := by
  rw [Item.behind, known]
  rfl

/-- The first of several trees is behind the marker, the others are behind it, and what follows
the first tree is expected there. -/
theorem expected_of_trees {trees : List Tree} (valid : Tree.AllValid g trees)
    (behind : j.behind g = trees.map Tree.root)
    (lookahead : (g.canonical symbols.reverse).lookahead j (front rest)) :
    Expected g symbols.reverse j (front (Tree.yields trees ++ rest)) := by
  have derived := valid.derives
  rw [← behind] at derived
  cases yields : Tree.yields trees with
  | nil =>
    rw [yields] at derived
    exact .inr ⟨derived, lookahead⟩
  | cons u others =>
    rw [yields] at derived
    exact .inl ⟨_, derived⟩

mutual

/-- The parser reads the yield of a tree and puts the state for its root on the stack. -/
theorem reaches_tree (wf : g.WellFormed) (accept : g.start.isSome) (lalr : a.IsLALR g)
    (decides : Decides g a table) : {tree : Tree} → tree.Valid g → {above : List Nat} →
    {symbols : List Symbol} → {rest : List TerminalId} → (reduced : List RuleId) → {j : Item} →
    Spells a above symbols → (g.canonical symbols.reverse).core j →
    j.nextSymbol g = some tree.root → Expected g symbols.reverse j (front rest) →
    ∃ k, Spells a (k :: above) (tree.root :: symbols) ∧
      Reaches g table false ⟨above, tree.yield ++ rest, reduced⟩
        ⟨k :: above, rest, reduced ++ tree.postOrder⟩
  | .leaf t, _, above, symbols, rest, reduced, j, spells, core, next, _ => by
    obtain ⟨k, longer, move⟩ := step_shift rest reduced lalr decides spells core next
    refine ⟨k, longer, ?_⟩
    rw [Tree.postOrder, List.append_nil]
    exact .single move
  | .node rule children, valid, above, symbols, rest, reduced, j, spells, core, next, expected => by
    rw [Tree.Valid] at valid
    obtain ⟨known, roots, below⟩ := valid
    have member : rule ∈ g.rules.values := mem_rules known
    have lookahead : (g.canonical symbols.reverse).lookahead ⟨rule.id, 0⟩ (front rest) := by
      rcases expected with first | ⟨empty, inSet⟩
      · exact lookahead_first core member next first
      · exact lookahead_follow inSet member next empty
    obtain ⟨states, length, longer, ended, path⟩ := reaches_trees wf accept lalr decides below
      reduced spells known (by simpa using roots.symm) lookahead
    have size : children.length = rule.right.size := by
      simpa using congrArg List.length roots
    rw [roots] at longer ended
    rw [Nat.zero_add, size] at ended
    obtain ⟨k, last, move⟩ := step_reduce (reduced ++ Tree.postOrders children) wf lalr
      decides member (id_ne_accept wf accept member next) (length.trans size) longer ended core next
    refine ⟨k, last, path.tail ?_⟩
    simp only [move, Tree.postOrder, List.append_assoc]

theorem reaches_trees (wf : g.WellFormed) (accept : g.start.isSome) (lalr : a.IsLALR g)
    (decides : Decides g a table) : {trees : List Tree} → Tree.AllValid g trees →
    {above : List Nat} → {symbols : List Symbol} → {rest : List TerminalId} →
    (reduced : List RuleId) → {j : Item} → {rule : Rule} → Spells a above symbols →
    g.rule? j.rule = some rule → rule.right.toList.drop j.marker = trees.map Tree.root →
    (g.canonical symbols.reverse).lookahead j (front rest) →
    ∃ states : List Nat, states.length = trees.length ∧
      Spells a (states ++ above) ((trees.map Tree.root).reverse ++ symbols) ∧
      (g.canonical ((trees.map Tree.root).reverse ++ symbols).reverse).lookahead
        ⟨j.rule, j.marker + trees.length⟩ (front rest) ∧
      Reaches g table false ⟨above, Tree.yields trees ++ rest, reduced⟩
        ⟨states ++ above, rest, reduced ++ Tree.postOrders trees⟩
  | [], _, above, symbols, rest, reduced, j, rule, spells, _, _, lookahead => by
    refine ⟨[], rfl, spells, lookahead, ?_⟩
    rw [Tree.postOrders, List.append_nil]
    exact .refl
  | tree :: trees, valid, above, symbols, rest, reduced, j, rule, spells, known, roots,
      lookahead => by
    rw [Tree.AllValid] at valid
    rw [List.map_cons] at roots
    have next : j.nextSymbol g = some tree.root := by
      have head := congrArg List.head? roots
      rw [List.head?_drop, List.head?_cons, Array.getElem?_toList] at head
      rw [Item.nextSymbol, known, Option.bind_some]
      exact head
    have others : rule.right.toList.drop (j.marker + 1) = trees.map Tree.root := by
      rw [← List.tail_drop, roots, List.tail_cons]
    obtain ⟨k, longer, first⟩ := reaches_tree wf accept lalr decides valid.1 reduced
      spells (supported_canonical g _ _ _ lookahead) next
      (expected_of_trees valid.2 ((behind_eq known).trans others) lookahead)
    have advanced := lookahead_moved lookahead next
    rw [← List.reverse_cons] at advanced
    obtain ⟨states, length, last, ended, path⟩ := reaches_trees wf accept lalr decides valid.2
      (reduced ++ tree.postOrder) (j := j.moved) longer known others advanced
    refine ⟨states ++ [k], by simp [length], ?_, ?_, ?_⟩
    · simpa using last
    · have moved : j.marker + (tree :: trees).length = j.marker + 1 + trees.length := by
        rw [List.length_cons]
        omega
      rw [moved]
      simpa [Item.moved] using ended
    · rw [Tree.yields, Tree.postOrders, List.append_assoc, ← List.append_assoc reduced]
      apply first.trans
      simpa [Reaches] using path

end

/-- A tree of the start symbol is accepted. -/
theorem reaches_accepted (wf : g.WellFormed) (lalr : a.IsLALR g) (decides : Decides g a table)
    {n : NonterminalId} (start : g.start = some n) {tree : Tree} (parses : tree.Parses g n) :
    ∃ c, Reaches g table false (.initial tree.yield) c ∧ step g table false c = .accepted ∧
      c.reduced = tree.postOrder := by
  have accept : g.start.isSome := by rw [start]; rfl
  have known : g.rule? .accept = some (Builder.acceptingRule n) := wf.accept n start
  have next : Item.initial.nextSymbol g = some tree.root := by
    rw [Item.nextSymbol, Item.initial, known, parses.root]
    rfl
  have expected : Expected g [] .initial (front []) := by
    refine .inr ⟨?_, lookahead_initial⟩
    rw [behind_eq known]
    exact nullable_nil
  have nothing : Spells a [] [] := trivial
  obtain ⟨k, spells, path⟩ :=
    reaches_tree wf accept lalr decides parses.valid [] nothing core_initial next expected
  have lookahead : (g.canonical [tree.root]).lookahead Item.initial.moved .endOfInput :=
    lookahead_moved lookahead_initial next
  have ended : Item.initial.moved.nextSymbol g = none := by
    rw [Item.nextSymbol, Item.initial, Item.moved, known]
    rfl
  obtain ⟨s, state, finished⟩ := exists_finished lalr spells lookahead ended
  obtain ⟨row, there, decided⟩ := decides _ s state
  refine ⟨⟨[k], [], tree.postOrder⟩, ?_, ?_, rfl⟩
  · rw [List.append_nil] at path
    exact path
  · have action : row.action false .endOfInput = .accept :=
      Row.action_of_cell (decided.finished _ _ finished) _
    rw [step, Configuration.top, there]
    dsimp only [Configuration.lookahead, List.head?_nil, Option.getD_none]
    rw [action]

/-- A table without conflicts accepts every sentence by the rules of its tree in post-order, and
no sentence has two trees. -/
theorem sentences_accepted {n : NonterminalId} (defined : g.Defined) (start : g.start = some n)
    (built : Automaton.construct g (.compute g) = .ok a)
    (none : (ParseTable.ofAutomaton g a).conflicts = []) :
    (∀ tree : Tree, tree.Parses g n →
      ∃ c, Reaches g (.ofAutomaton g a) false (.initial tree.yield) c ∧
        step g (.ofAutomaton g a) false c = .accepted ∧ c.reduced = tree.postOrder) ∧
    (∀ w : List TerminalId, g.Derives [.nonterminal n] (w.map .terminal) →
      ∃ c, Reaches g (.ofAutomaton g a) false (.initial w) c ∧
        step g (.ofAutomaton g a) false c = .accepted) ∧
    ∀ tree tree' : Tree, tree.Parses g n → tree'.Parses g n → tree.yield = tree'.yield →
      tree = tree' := by
  have wf := defined.wellFormed
  have accept : g.start.isSome := by rw [start]; rfl
  have accepted {tree : Tree} (parses : tree.Parses g n) :=
    reaches_accepted wf (Automaton.construct_isLALR wf accept built) (decides_ofAutomaton none)
      start parses
  refine ⟨fun tree parses => accepted parses, fun w derived => ?_,
    fun tree tree' parses parses' same => ?_⟩
  · obtain ⟨trees, valid, roots, rfl⟩ := Tree.exists_trees wf derived
    obtain ⟨tree, rfl, root⟩ := List.map_eq_singleton_iff.1 roots
    obtain ⟨c, path, done, -⟩ := accepted ⟨valid.1, root⟩
    refine ⟨c, ?_, done⟩
    rw [Tree.yields, Tree.yields, List.append_nil]
    exact path
  · -- Both trees are reduced by the same run.
    obtain ⟨c, path, done, rules⟩ := accepted parses
    obtain ⟨c', path', done', rules'⟩ := accepted parses'
    rw [same] at path
    obtain rfl := path.eq_of_accepted path' done done'
    exact Tree.eq_of_postOrder parses.valid parses'.valid (parses.root.trans parses'.root.symm)
      (rules.symm.trans rules')

/-- The parser of nested pairs accepts `ab` by the rules of its tree. -/
theorem sentences_accepted_nestedPairs : ∃ g a c, Grammar.define nestedPairs = .ok g ∧
    Automaton.construct g (.compute g) = .ok a ∧ (ParseTable.ofAutomaton g a).conflicts = [] ∧
    Reaches g (.ofAutomaton g a) false (.initial [⟨3⟩, ⟨4⟩]) c ∧
    step g (.ofAutomaton g a) false c = .accepted ∧ c.reduced = [⟨2⟩, ⟨1⟩] := by
  obtain ⟨g, a, defined, start, pair, empty, done⟩ := Automaton.nestedPairs_constructed
  have check : Automaton.passes nestedPairs (fun g a =>
      (ParseTable.ofAutomaton g a).conflicts = []) = true := by decide +kernel
  simp only [Automaton.passes_eq defined done, decide_eq_true_eq] at check
  let tree : Tree := .node pairRule [.leaf ⟨3⟩, .node emptyRule [], .leaf ⟨4⟩]
  have parses : tree.Parses g ⟨1⟩ := by
    refine ⟨⟨pair, rfl, trivial, ⟨empty, rfl, trivial⟩, trivial, trivial⟩, rfl⟩
  obtain ⟨c, path, accepted, rules⟩ :=
    (sentences_accepted (.steps defined (by decide)) start done check).1 tree parses
  exact ⟨g, a, c, defined, done, check, path, accepted, rules⟩

end Lalr.Driver
