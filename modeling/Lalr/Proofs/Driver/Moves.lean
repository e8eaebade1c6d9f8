import Lalr.Proofs.Automaton.Continuation
import Lalr.Proofs.Driver.Soundness

/-! What a step of the parser does to the symbols that its stack spells. Whatever the cells and
the default reductions of the table, a shift follows an item and a reduction takes back a rule
that was started where its left-hand side may stand. -/
namespace Lalr.Driver

open Grammar

/-- A step on symbols, the last on top, and the input that is left. -/
inductive Moves (g : Grammar) :
    List Symbol → List TerminalId → List Symbol → List TerminalId → Prop where
  | shift {i : Item} (core : (g.canonical symbols.reverse).core i)
      (next : i.nextSymbol g = some (.terminal t)) :
      Moves g symbols (t :: input) (.terminal t :: symbols) input
  | reduce {rule : Rule} (known : g.rule? r = some rule)
      (core : (g.canonical back.reverse).core ⟨r, 0⟩) :
      Moves g (rule.right.toList.reverse ++ back) input (.nonterminal rule.left :: back) input

variable {g : Grammar} {table : ParseTable} {a : Automaton} {defaults : Bool}
  {c c' : Configuration} {s : State} {symbols symbols' : List Symbol}
  {input input' w : List TerminalId} {t : TerminalId}

/-- A step goes on by a move, accepts where the accepting rule is finished, or rejects. -/
theorem step_cases (wf : g.WellFormed) (accept : g.start.isSome) (lalr : a.IsLALR g)
    (fits : Fits g a table) (defaults : Bool) (spells : Spells a c.above symbols) :
    step g table defaults c = .rejected ∨
    (step g table defaults c = .accepted ∧
      ∃ s, a.states[c.top]? = some s ∧ s.Finished g .accept c.lookahead) ∨
    ∃ c' symbols', step g table defaults c = .next c' ∧ Spells a c'.above symbols' ∧
      Moves g symbols c.input symbols' c'.input := by
  unfold step
  cases there : table.rows[c.top]? with
  | none => exact .inl rfl
  | some row =>
    obtain ⟨s, state, chooses⟩ := fits.state _ row there
    dsimp only
    rcases chooses.action_cases defaults c.lookahead with
      ⟨k, edge, eq⟩ | ⟨r, t, finished, other, eq⟩ | ⟨finished, eq⟩ | eq
    · rw [eq]
      obtain ⟨front, ⟨i, core, next⟩, longer⟩ := shift_spells wf lalr spells state edge
      refine .inr (.inr ⟨_, _, rfl, longer, ?_⟩)
      rw [front]
      exact .shift core next
    · rw [eq]
      obtain ⟨rule, back, k, known, rfl, core, shorter, move⟩ :=
        reduce_spells wf accept lalr fits spells state finished other
      exact .inr (.inr ⟨_, _, move, shorter, .reduce known core⟩)
    · rw [eq]
      exact .inr (.inl ⟨rfl, s, state, finished⟩)
    · rw [eq]
      exact .inl rfl

theorem step_moves (wf : g.WellFormed) (accept : g.start.isSome) (lalr : a.IsLALR g)
    (fits : Fits g a table) (spells : Spells a c.above symbols)
    (move : step g table defaults c = .next c') :
    ∃ symbols', Spells a c'.above symbols' ∧ Moves g symbols c.input symbols' c'.input := by
  rcases step_cases wf accept lalr fits defaults spells with
    eq | ⟨eq, -⟩ | ⟨c₁, symbols', eq, spells', moves⟩
  · cases eq.symm.trans move
  · cases eq.symm.trans move
  · cases eq.symm.trans move
    exact ⟨symbols', spells', moves⟩

/-- What moves keep, a run keeps. -/
theorem reaches_moves {P : List Symbol → List TerminalId → Prop} (wf : g.WellFormed)
    (accept : g.start.isSome) (lalr : a.IsLALR g) (fits : Fits g a table)
    (keep : ∀ {symbols input symbols' input'}, P symbols input →
      Moves g symbols input symbols' input' → P symbols' input')
    (spells : Spells a c.above symbols) (start : P symbols c.input)
    (path : Reaches g table defaults c c') :
    ∃ symbols', Spells a c'.above symbols' ∧ P symbols' c'.input := by
  induction path with
  | refl => exact ⟨symbols, spells, start⟩
  | tail _ move ih =>
    obtain ⟨symbols', spells', holds⟩ := ih
    obtain ⟨symbols'', spells'', moves⟩ := step_moves wf accept lalr fits spells' move
    exact ⟨symbols'', spells'', keep holds moves⟩

end Lalr.Driver
