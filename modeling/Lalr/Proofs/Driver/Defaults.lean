import Lalr.Proofs.Driver.Moves

/-! Default reductions do not change what is accepted. A lookahead without a cell has no answer
behind the string on the stack, and reductions keep this: what is awaited behind a left-hand side
is a lookahead of the finished rule in the state before. So the lookahead is neither shifted nor
accepted, however many reductions follow. -/
namespace Lalr.Driver

open Grammar

variable {g : Grammar} {table : ParseTable} {a : Automaton} {defaults : Bool}
  {c c' : Configuration} {row : Row} {s : State} {symbols symbols' : List Symbol}
  {input input' w : List TerminalId} {t : TerminalId}

/-- Some item behind the string is gone on with by `t`, or is finished with the lookahead `t`. -/
def Answers (g : Grammar) (γ : List Symbol) (t : TerminalId) : Prop :=
  (∃ i, (g.canonical γ).core i ∧ i.nextSymbol g = some (.terminal t)) ∨
  ∃ i, (g.canonical γ).lookahead i t ∧ i.nextSymbol g = none

theorem Answers.awaits {γ : List Symbol} (h : Answers g γ t) : g.Awaits γ t := by
  rcases h with ⟨i, core, next⟩ | ⟨i, lookahead, ended⟩
  · exact awaits_of_next core next
  · exact awaits_of_ended lookahead ended

/-- A lookahead that is answered after a reduction was answered before it. -/
theorem Moves.answers (wf : g.WellFormed) (moves : Moves g symbols input symbols' input')
    (later : input' = input → Answers g symbols'.reverse (input.head?.getD .endOfInput)) :
    Answers g symbols.reverse (input.head?.getD .endOfInput) := by
  cases moves with
  | shift core next => exact .inl ⟨_, core, next⟩
  | @reduce r back _ rule known core =>
    have awaits := (later rfl).awaits
    rw [List.reverse_cons] at awaits
    have first := lookahead_of_awaits wf (mem_rules known) awaits
    rw [wf.rule_id r rule known] at first
    have last := lookahead_take known first (Nat.le_refl _)
    rw [List.take_of_length_le (by simp)] at last
    refine .inr ⟨⟨r, rule.right.size⟩, by simpa using last, ?_⟩
    simp [Item.nextSymbol, known]

/-- What is answered has a cell. -/
theorem Answers.cell (lalr : a.IsLALR g) {γ : List Symbol} {i : Nat} (path : a.walk γ = some i)
    (state : a.states[i]? = some s) (h : Answers g γ t) : t ∈ (s.row g).actions.keys := by
  have candidate : t ∈ (s.candidates g).keys := by
    apply State.mem_keys_candidates.2
    rcases h with ⟨j, core, next⟩ | ⟨j, lookahead, ended⟩
    · obtain ⟨k, longer⟩ := (lalr.path _).2 ⟨_, core_moved core next⟩
      rw [Automaton.walk_concat, path, Option.bind_some, Automaton.follow, state] at longer
      exact .inl ⟨k, longer⟩
    · exact .inr ⟨_, j, rfl, ended, (lalr.lookaheads i s state j t).2 ⟨γ, path, lookahead⟩⟩
  rw [OrderedMap.mem_keys_iff, State.get?_row_actions]
  obtain ⟨cell, entry⟩ := OrderedMap.mem_keys_iff.1 candidate
  exact ⟨_, by rw [entry, Option.map_some]⟩

/-- The accepting rule is finished only behind the start symbol, in front of the end. -/
theorem answers_of_accept (wf : g.WellFormed) (accept : g.start.isSome) (lalr : a.IsLALR g)
    {γ : List Symbol} {i : Nat} (path : a.walk γ = some i) (state : a.states[i]? = some s)
    (finished : s.Finished g .accept t) : Answers g γ t := by
  obtain ⟨⟨r, k⟩, rfl, ended, member⟩ := finished
  obtain ⟨γ', -, lookahead⟩ := (lalr.lookaheads i s state _ t).1 member
  obtain rfl := lookahead_accept wf accept lookahead rfl
  have core := (lalr.items γ i s path state _).1 (s.items.supported _ _ member)
  obtain ⟨δ, rule, known, le, rfl, first⟩ := core_split wf accept core
  obtain rfl := eq_nil_of_core_initial wf accept first
  exact .inr ⟨_, lookahead_take known lookahead_initial le, ended⟩

/-- The step takes the lookahead, by a shift or by accepting. -/
def Takes (table : ParseTable) (defaults : Bool) (c : Configuration) : Prop :=
  ∃ row, table.rows[c.top]? = some row ∧ ((∃ k, row.action defaults c.lookahead = .shift k) ∨
    row.action defaults c.lookahead = .accept)

def Misses (table : ParseTable) (c : Configuration) : Prop :=
  ∃ row, table.rows[c.top]? = some row ∧ row.actions.get? c.lookahead = none

/-- No item behind the string on the stack answers the lookahead. -/
def Refuses (g : Grammar) (a : Automaton) (c : Configuration) : Prop :=
  ∃ symbols, Spells a c.above symbols ∧ ¬ Answers g symbols.reverse c.lookahead

theorem refuses_of_misses (lalr : a.IsLALR g) (spells : Spells a c.above symbols)
    (misses : Misses (.ofAutomaton g a) c) : Refuses g a c := by
  obtain ⟨row, there, missing⟩ := misses
  rw [ParseTable.ofAutomaton, Array.getElem?_map] at there
  obtain ⟨s, state, rfl⟩ := Option.map_eq_some_iff.1 there
  refine ⟨symbols, spells, fun answers => ?_⟩
  exact OrderedMap.get?_eq_none_iff.1 missing (answers.cell lalr spells.walk state)

/-- Whatever is taken is answered. -/
theorem Refuses.not_takes (wf : g.WellFormed) (accept : g.start.isSome) (lalr : a.IsLALR g)
    (fits : Fits g a table) (refuses : Refuses g a c) : ¬ Takes table defaults c := by
  obtain ⟨symbols, spells, unanswered⟩ := refuses
  rintro ⟨row, there, takes⟩
  obtain ⟨s, state, chooses⟩ := fits.state _ row there
  apply unanswered
  rcases takes with ⟨k, shift⟩ | accepts
  · obtain ⟨-, item, -⟩ := shift_spells wf lalr spells state (chooses.edge_of_shift shift)
    exact .inl item
  · exact answers_of_accept wf accept lalr spells.walk state (chooses.finished_of_accept accepts)

/-- Where the lookahead is refused it is not read, and it is refused again after a reduction. -/
theorem Refuses.step (wf : g.WellFormed) (accept : g.start.isSome) (lalr : a.IsLALR g)
    (fits : Fits g a table) (refuses : Refuses g a c)
    (move : step g table defaults c = .next c') : c'.input = c.input ∧ Refuses g a c' := by
  obtain ⟨symbols, spells, unanswered⟩ := refuses
  obtain ⟨symbols', spells', moves⟩ := step_moves wf accept lalr fits spells move
  have stays : c'.input = c.input := by
    apply Classical.byContradiction
    intro reads
    exact unanswered (moves.answers wf fun same => absurd same reads)
  refine ⟨stays, symbols', spells', fun answers => unanswered (moves.answers wf fun _ => ?_)⟩
  rwa [Configuration.lookahead, stays] at answers

theorem Refuses.reaches (wf : g.WellFormed) (accept : g.start.isSome) (lalr : a.IsLALR g)
    (fits : Fits g a table) (refuses : Refuses g a c) (path : Reaches g table defaults c c') :
    c'.input = c.input ∧ Refuses g a c' := by
  induction path with
  | refl => exact ⟨rfl, refuses⟩
  | tail _ move ih =>
    obtain ⟨same, refuses'⟩ := ih
    obtain ⟨stays, refuses''⟩ := refuses'.step wf accept lalr fits move
    exact ⟨stays.trans same, refuses''⟩

/-- A cell decides alone whether default reductions are taken or not. -/
theorem step_eq_of_not_misses (hits : ¬ Misses table c) :
    step g table true c = step g table false c := by
  unfold Driver.step
  cases there : table.rows[c.top]? with
  | none => rfl
  | some row =>
    cases cell : row.actions.get? c.lookahead with
    | none => exact absurd ⟨row, there, cell⟩ hits
    | some action => simp [Row.action_of_cell cell]

/-- Without default reductions a missing cell rejects. -/
theorem step_of_misses (misses : Misses table c) : step g table false c = .rejected := by
  obtain ⟨row, there, missing⟩ := misses
  simp [Driver.step, there, Row.action, missing]

theorem takes_of_accepted (done : step g table defaults c = .accepted) :
    Takes table defaults c := by
  unfold Driver.step at done
  cases there : table.rows[c.top]? with
  | none => simp [there] at done
  | some row =>
    refine ⟨row, there, .inr ?_⟩
    simp only [there] at done
    cases action : row.action defaults c.lookahead with
    | accept => rfl
    | shift k => simp [action] at done
    | error => simp [action] at done
    | reduce r =>
      simp only [action, reduce] at done
      split at done
      · cases done
      · split at done
        · cases done
        · split at done <;> cases done

/-- A lookahead without a cell is not read and not taken, whatever reductions follow. -/
theorem misses_reaches (defined : g.Defined) (built : Automaton.construct g (.compute g) = .ok a)
    (before : Reaches g (.ofAutomaton g a) true (.initial w) c)
    (misses : Misses (.ofAutomaton g a) c) (path : Reaches g (.ofAutomaton g a) true c c') :
    c'.input = c.input ∧ ¬ Takes (.ofAutomaton g a) true c' := by
  have wf := defined.wellFormed
  cases start : g.start with
  | none =>
    obtain ⟨row, there, -⟩ := misses
    simp [Automaton.eq_empty_of_no_start wf start built, ParseTable.ofAutomaton] at there
  | some n =>
    have accept : g.start.isSome := by simp [start]
    have lalr := Automaton.construct_isLALR wf accept built
    have fits := fits_ofAutomaton g a
    have nothing : Spells a (Configuration.initial w).above [] := trivial
    obtain ⟨symbols, spells, -⟩ := reaches_moves (P := fun _ _ => True) wf accept lalr fits
      (fun _ _ => trivial) nothing trivial before
    obtain ⟨same, refuses⟩ :=
      (refuses_of_misses lalr spells misses).reaches wf accept lalr fits path
    exact ⟨same, refuses.not_takes wf accept lalr fits⟩

/-- Default reductions neither add nor lose an accepting run, and none that is taken for want of
a cell is followed by a step that takes the lookahead. -/
theorem defaults_accept_nothing_more (defined : g.Defined)
    (built : Automaton.construct g (.compute g) = .ok a) (w : List TerminalId) :
    (∀ c, Reaches g (.ofAutomaton g a) true (.initial w) c ∧
        step g (.ofAutomaton g a) true c = .accepted ↔
      Reaches g (.ofAutomaton g a) false (.initial w) c ∧
        step g (.ofAutomaton g a) false c = .accepted) ∧
    ∀ c c', Reaches g (.ofAutomaton g a) true (.initial w) c → Misses (.ofAutomaton g a) c →
      Reaches g (.ofAutomaton g a) true c c' →
      c'.input = c.input ∧ ¬ Takes (.ofAutomaton g a) true c' := by
  refine ⟨fun c => ⟨?_, ?_⟩, fun c c' before misses path =>
    misses_reaches defined built before misses path⟩
  · rintro ⟨path, done⟩
    -- On the way to acceptance no cell is missing.
    have hits {d : Configuration} (before : Reaches g (.ofAutomaton g a) true (.initial w) d)
        (after : Reaches g (.ofAutomaton g a) true d c) : ¬ Misses (.ofAutomaton g a) d :=
      fun misses => (misses_reaches defined built before misses after).2 (takes_of_accepted done)
    have same {d : Configuration} (before : Reaches g (.ofAutomaton g a) true (.initial w) d)
        (after : Reaches g (.ofAutomaton g a) true d c) :
        Reaches g (.ofAutomaton g a) false (.initial w) d := by
      induction before with
      | refl => exact .refl
      | tail before move ih =>
        have further : Reaches g (.ofAutomaton g a) true _ c := .head move after
        refine (ih further).tail ?_
        rwa [← step_eq_of_not_misses (hits before further)]
    exact ⟨same path .refl, step_eq_of_not_misses (hits path .refl) ▸ done⟩
  · rintro ⟨path, done⟩
    have same {d : Configuration} {o : Outcome} (eq : step g (.ofAutomaton g a) false d = o)
        (goes : o ≠ .rejected) : step g (.ofAutomaton g a) true d = o := by
      rw [step_eq_of_not_misses fun misses => goes (eq.symm.trans (step_of_misses misses)), eq]
    have moves (d d' : Configuration) (move : step g (.ofAutomaton g a) false d = .next d') :
        step g (.ofAutomaton g a) true d = .next d' := same move (by simp)
    exact ⟨Relation.ReflTransGen.mono moves _ _ path, same done (by simp)⟩

/-- The parser of nested pairs reduces by the empty rule where `a` is not followed by `b`, and
then rejects; `ab` is accepted with and without default reductions. -/
theorem defaults_accept_nothing_more_nestedPairs : ∃ g a c c' d,
    Grammar.define nestedPairs = .ok g ∧ Automaton.construct g (.compute g) = .ok a ∧
    Reaches g (.ofAutomaton g a) true (.initial [⟨3⟩]) c ∧ Misses (.ofAutomaton g a) c ∧
    step g (.ofAutomaton g a) true c = .next c' ∧ c'.reduced = [⟨2⟩] ∧
    c'.input = c.input ∧ ¬ Takes (.ofAutomaton g a) true c' ∧
    Reaches g (.ofAutomaton g a) false (.initial [⟨3⟩, ⟨4⟩]) d ∧
    step g (.ofAutomaton g a) false d = .accepted := by
  obtain ⟨g, a, defined, -, -, -, built⟩ := Automaton.nestedPairs_constructed
  have check : Automaton.passes nestedPairs (fun g a =>
      let c := run g (.ofAutomaton g a) true 1 (.initial [⟨3⟩])
      let c' := run g (.ofAutomaton g a) true 1 c
      let d := run g (.ofAutomaton g a) true 10 (.initial [⟨3⟩, ⟨4⟩])
      ((ParseTable.ofAutomaton g a).rows[c.top]?.any fun row =>
        row.actions.get? c.lookahead = none) ∧
      step g (.ofAutomaton g a) true c = .next c' ∧ c'.reduced = [⟨2⟩] ∧
      step g (.ofAutomaton g a) true d = .accepted) = true := by
    decide +kernel
  simp only [Automaton.passes_eq defined built, decide_eq_true_eq, Option.any_eq_true] at check
  obtain ⟨misses, move, rules, done⟩ := check
  have first := defaults_accept_nothing_more (.steps defined (by decide)) built [⟨3⟩]
  have second := defaults_accept_nothing_more (.steps defined (by decide)) built [⟨3⟩, ⟨4⟩]
  obtain ⟨same, refused⟩ := first.2 _ _ (reaches_run 1 _) misses (.single move)
  obtain ⟨path, accepted⟩ := (second.1 _).1 ⟨reaches_run 10 _, done⟩
  exact ⟨g, a, _, _, _, defined, built, reaches_run 1 _, misses, move, rules, same, refused, path,
    accepted⟩

end Lalr.Driver
