import Lalr.Proofs.Table.Cells

/-! How cells with several candidates are settled, and which conflicts are recorded. The rules
that settle a cell are stated once, as a relation between candidates and action; what the table
holds and what it records are both read off the candidates of the state. -/
namespace Lalr

namespace Grammar

def terminalPrecedence (g : Grammar) (t : TerminalId) : Option Precedence :=
  (g.terminal? t).bind (·.precedence)

def rulePrecedence (g : Grammar) (r : RuleId) : Option Precedence :=
  (g.rule? r).bind g.precedenceOf

end Grammar

/-- The action that the candidates of a cell for `t` come to, and how it was chosen if there was
a choice. The rules are in ascending order, so that `r` is the one declared first. -/
inductive Settles (g : Grammar) (t : TerminalId) :
    Option Nat → List RuleId → Action → Option Resolution → Prop where
  | shift : Settles g t (some k) [] (.shift k) none
  | rule : Settles g t none [r] (.ofRule r) none
  | firstRule : others ≠ [] → Settles g t none (r :: others) (.ofRule r) (some .earliestRule)
  | undeclared : g.terminalPrecedence t = none ∨ g.rulePrecedence r = none →
      Settles g t (some k) (r :: others) (.shift k) (some .preferShift)
  | shiftWins : g.terminalPrecedence t = some p → g.rulePrecedence r = some q →
      q.priority < p.priority ∨ q.priority = p.priority ∧ p.associativity = .right →
      Settles g t (some k) (r :: others) (.shift k) (some .precedence)
  | ruleWins : g.terminalPrecedence t = some p → g.rulePrecedence r = some q →
      p.priority < q.priority ∨ q.priority = p.priority ∧ p.associativity = .left →
      Settles g t (some k) (r :: others) (.ofRule r)
        (some (if others = [] then .precedence else .earliestRule))
  | neitherWins : g.terminalPrecedence t = some p → g.rulePrecedence r = some q →
      q.priority = p.priority → p.associativity = .nonassociative →
      Settles g t (some k) (r :: others) .error (some .precedence)

variable {g : Grammar} {t : TerminalId} {shift : Option Nat} {reduces : List RuleId}
  {action action' : Action} {how how' : Option Resolution} {c : Candidates}

/-- Candidates come to one action in one way. -/
theorem Settles.unique (h : Settles g t shift reduces action how)
    (h' : Settles g t shift reduces action' how') : action = action' ∧ how = how' := by
  cases h <;> cases h' <;> grind

theorem Settles.candidate (h : Settles g t shift reduces action how) :
    shift ≠ none ∨ reduces ≠ [] := by
  cases h <;> simp

/-- There was a choice exactly if there were two candidates. -/
theorem Settles.choice_iff (h : Settles g t shift reduces action how) :
    how ≠ none ↔ 2 ≤ shift.toList.length + reduces.length := by
  cases h with
  | shift => simp
  | rule => simp
  | firstRule several =>
    have := List.length_pos_iff.2 several
    simp
    omega
  | undeclared => simp; omega
  | shiftWins => simp; omega
  | ruleWins => simp; omega
  | neitherWins => simp; omega

theorem Precedence.compare_cases (p q : Precedence) :
    (compare (some p) (some q) = some .shift ∧
      (q.priority < p.priority ∨ q.priority = p.priority ∧ p.associativity = .right)) ∨
    (compare (some p) (some q) = some .reduce ∧
      (p.priority < q.priority ∨ q.priority = p.priority ∧ p.associativity = .left)) ∨
    (compare (some p) (some q) = some .neither ∧
      q.priority = p.priority ∧ p.associativity = .nonassociative) := by
  by_cases lower : q.priority < p.priority
  · simp [compare, lower]
  by_cases higher : p.priority < q.priority
  · simp [compare, lower, higher]
  have same : q.priority = p.priority :=
    UInt16.le_antisymm (UInt16.not_lt.1 higher) (UInt16.not_lt.1 lower)
  cases associativity : p.associativity <;> simp [compare, same, associativity]

/-- Candidates are settled by the rules. -/
theorem Candidates.settles (candidate : c.shift ≠ none ∨ c.reduces ≠ []) :
    Settles g t c.shift c.reduces (c.resolve g t).1 (c.resolve g t).2 := by
  obtain ⟨_ | k, _ | ⟨r, others⟩⟩ := c
  case none.nil => simp at candidate
  case none.cons =>
    cases others with
    | nil => exact .rule
    | cons r' rest => exact .firstRule (by simp)
  case some.nil => exact .shift
  case some.cons =>
    have declared : (g.terminal? t).bind (·.precedence) = g.terminalPrecedence t := rfl
    have effective : (g.rule? r).bind g.precedenceOf = g.rulePrecedence r := rfl
    simp only [resolve, declared, effective]
    cases shiftSide : g.terminalPrecedence t with
    | none => exact .undeclared (.inl shiftSide)
    | some p =>
      cases ruleSide : g.rulePrecedence r with
      | none => exact .undeclared (.inr ruleSide)
      | some q =>
        rcases p.compare_cases q with ⟨eq, wins⟩ | ⟨eq, wins⟩ | ⟨eq, same, neither⟩
        · rw [eq]
          exact .shiftWins shiftSide ruleSide wins
        · rw [eq]
          simpa using Settles.ruleWins shiftSide ruleSide wins
        · rw [eq]
          exact .neitherWins shiftSide ruleSide same neither

/-- Where the members of a list but one give nothing that a filter keeps, they may be left out. -/
theorem filter_flatMap_of_unique {l : List α} {x : α} {f : α → List β} {p : β → Bool}
    (nodup : l.Nodup) (member : x ∈ l) (other : ∀ y ∈ l, y ≠ x → ∀ b ∈ f y, p b = false) :
    (l.flatMap f).filter p = (f x).filter p := by
  obtain ⟨front, back, rfl⟩ := List.append_of_mem member
  have fresh := List.nodup_middle.1 nodup
  have nothing (part : List α) (sub : part ⊆ front ++ back) : (part.flatMap f).filter p = [] := by
    rw [List.filter_eq_nil_iff]
    intro b inPart
    obtain ⟨y, inList, gives⟩ := List.mem_flatMap.1 inPart
    have different : y ≠ x := fun same => (List.nodup_cons.1 fresh).1 (same ▸ sub inList)
    have present : y ∈ front ++ x :: back := by
      have := List.mem_append.1 (sub inList)
      grind
    simp [other y present different b gives]
  simp [nothing front (List.subset_append_left ..), nothing back (List.subset_append_right ..)]

namespace State

variable {s : State} {i : Nat} {e : Conflict}

theorem mem_conflicts : e ∈ s.conflicts g i ↔ ∃ c how, (s.candidates g).get? e.lookahead = some c ∧
    (c.resolve g e.lookahead).2 = some how ∧
    e = ⟨i, e.lookahead, c.shift, c.reduces, (c.resolve g e.lookahead).1, how⟩ := by
  simp only [conflicts, List.mem_filterMap, OrderedMap.mem_toList_iff, Prod.exists,
    Option.map_eq_some_iff]
  constructor
  · rintro ⟨u, c, entry, how, chosen, rfl⟩
    exact ⟨c, how, entry, chosen, rfl⟩
  · rintro ⟨c, how, entry, chosen, eq⟩
    exact ⟨e.lookahead, c, entry, how, chosen, eq.symm⟩

/-- A lookahead has at most one conflict, that of its candidates. -/
theorem filter_conflicts (g : Grammar) (s : State) (i : Nat) (t : TerminalId) :
    (s.conflicts g i).filter (fun e => e.lookahead = t) =
      (((s.candidates g).get? t).bind fun c => (c.resolve g t).2.map fun how =>
        (⟨i, t, c.shift, c.reduces, (c.resolve g t).1, how⟩ : Conflict)).toList := by
  cases entry : (s.candidates g).get? t with
  | none =>
    simp only [Option.bind_none, Option.toList_none, List.filter_eq_nil_iff, decide_eq_true_eq]
    rintro e member rfl
    obtain ⟨c, how, there, -⟩ := mem_conflicts.1 member
    cases entry.symm.trans there
  | some c =>
    rw [conflicts, List.filterMap_eq_flatMap_toList, filter_flatMap_of_unique (x := (t, c))]
    case nodup => exact List.Nodup.of_map Prod.fst (s.candidates g).nodup
    case member => exact OrderedMap.mem_toList_iff.2 entry
    case other =>
      rintro ⟨u, d⟩ inMap different e gives
      have there := OrderedMap.mem_toList_iff.1 inMap
      simp only [Option.mem_toList, Option.map_eq_some_iff] at gives
      obtain ⟨how, -, rfl⟩ := gives
      simp only [decide_eq_false_iff_not]
      rintro rfl
      cases entry.symm.trans there
      exact different rfl
    cases chosen : (c.resolve g t).2 <;> simp [chosen]

theorem pairwise_reduces (entry : (s.candidates g).get? t = some c) :
    c.reduces.Pairwise (compare · · = .lt) := by
  obtain ⟨all, eq, -⟩ := candidates_eq g s
  rw [eq, OrderedMap.get?_mapValues] at entry
  obtain ⟨d, -, rfl⟩ := Option.map_eq_some_iff.1 entry
  exact pairwise_sortedSet d.reduces

/-- A cell that has candidates is settled by the rules, and a choice is recorded. -/
theorem settles_of_candidates (i : Nat) (entry : (s.candidates g).get? t = some c) :
    ∃ action how, Settles g t (s.next (.terminal t)) c.reduces action how ∧
      (s.row g).actions.get? t = some action ∧
      (s.conflicts g i).filter (fun e => e.lookahead = t) = (how.map fun how =>
        (⟨i, t, s.next (.terminal t), c.reduces, action, how⟩ : Conflict)).toList := by
  obtain ⟨shift, rules⟩ := candidates_spec entry
  have candidate : c.shift ≠ none ∨ c.reduces ≠ [] := by
    rcases mem_keys_candidates.1 (OrderedMap.mem_keys_of_get? entry) with ⟨k, edge⟩ | ⟨r, finished⟩
    · exact .inl (by simp [shift, edge])
    · exact .inr (List.ne_nil_of_mem ((rules r).2 finished))
  refine ⟨_, _, shift ▸ Candidates.settles candidate, ?_, ?_⟩
  · rw [get?_row_actions, entry, Option.map_some]
  · rw [filter_conflicts, entry, Option.bind_some, shift]

end State

namespace ParseTable

def conflictsAt (table : ParseTable) (i : Nat) (t : TerminalId) : List Conflict :=
  table.conflicts.filter fun e => e.state = i ∧ e.lookahead = t

variable {a : Automaton} {i : Nat} {s : State}

theorem conflictsAt_ofAutomaton (state : a.states[i]? = some s) :
    (ofAutomaton g a).conflictsAt i t = (s.conflicts g i).filter fun e => e.lookahead = t := by
  have nodup : a.states.toList.zipIdx.Nodup := by
    apply List.Nodup.of_map Prod.snd
    rw [List.zipIdx_map_snd]
    exact List.nodup_range'
  have member : (s, i) ∈ a.states.toList.zipIdx := by
    simpa [List.mem_zipIdx_iff_getElem?] using state
  rw [conflictsAt, ofAutomaton, filter_flatMap_of_unique nodup member]
  · apply List.filter_congr
    intro e inState
    obtain ⟨c, how, -, -, eq⟩ := State.mem_conflicts.1 inState
    rw [eq]
    simp
  · rintro ⟨s', j⟩ there different e inState
    obtain ⟨c, how, -, -, eq⟩ := State.mem_conflicts.1 inState
    have state' : a.states[j]? = some s' := by
      simpa [List.mem_zipIdx_iff_getElem?] using there
    have other : j ≠ i := by
      rintro rfl
      cases state.symm.trans state'
      exact different rfl
    rw [eq]
    simp [other]

/-- The end of the input is the only lookahead that is accepted. -/
theorem accept_endOfInput (wf : g.WellFormed) (accept : g.start.isSome) (lalr : a.IsLALR g)
    (state : a.states[i]? = some s) (there : (s.row g).actions.get? t = some .accept) :
    t = .endOfInput := by
  rcases (s.row_chooses g).action t _ there with ⟨k, -, eq⟩ | ⟨r, finished, eq⟩ | eq
  · cases eq
  · have accepting : r = .accept := by
      by_contra other
      simp [Action.ofRule, other] at eq
    obtain ⟨j, isAccept, -, member⟩ := finished
    obtain ⟨γ, -, lookahead⟩ := (lalr.lookaheads i s state j t).1 member
    exact Grammar.lookahead_accept wf accept lookahead (isAccept.trans accepting)
  · cases eq

/-- The candidates of a cell are the shift and the finished rules. There is a cell exactly if
there is a candidate, its action is that of the rules, and a choice among two or more is the only
conflict recorded for it. Only the end of the input is accepted. -/
theorem cells_settled (defined : g.Defined) (built : Automaton.construct g (.compute g) = .ok a)
    (state : a.states[i]? = some s) (t : TerminalId) :
    ∃ row reduces, (ofAutomaton g a).rows[i]? = some row ∧
      reduces.Pairwise (compare · · = .lt) ∧ (∀ r, r ∈ reduces ↔ s.Finished g r t) ∧
      ((∃ action, row.actions.get? t = some action) ↔
        s.next (.terminal t) ≠ none ∨ reduces ≠ []) ∧
      ((ofAutomaton g a).conflictsAt i t ≠ [] ↔
        2 ≤ (s.next (.terminal t)).toList.length + reduces.length) ∧
      (∀ action, row.actions.get? t = some action → ∃ how,
        (∀ action' how', Settles g t (s.next (.terminal t)) reduces action' how' ↔
          action' = action ∧ how' = how) ∧
        (ofAutomaton g a).conflictsAt i t =
          (how.map fun how => ⟨i, t, s.next (.terminal t), reduces, action, how⟩).toList) ∧
      (row.actions.get? t = some .accept → t = .endOfInput) := by
  have wf := defined.wellFormed
  have accept : g.start.isSome := by
    by_contra none
    simp [Automaton.eq_empty_of_no_start wf (by simpa using none) built] at state
  have lalr := Automaton.construct_isLALR wf accept built
  have accepts := accept_endOfInput (t := t) wf accept lalr state
  rw [conflictsAt_ofAutomaton state]
  cases entry : (s.candidates g).get? t with
  | none =>
    have nothing := OrderedMap.get?_eq_none_iff.1 entry
    rw [State.mem_keys_candidates, not_or] at nothing
    obtain ⟨noShift, noRule⟩ := nothing
    have shift : s.next (.terminal t) = none :=
      Option.eq_none_iff_forall_ne_some.2 fun k edge => noShift ⟨k, edge⟩
    have cell : (s.row g).actions.get? t = none := by rw [State.get?_row_actions, entry]; rfl
    refine ⟨s.row g, [], rows_ofAutomaton state, .nil, fun r => ?_, ?_, ?_, ?_, accepts⟩
    · simpa using fun finished => noRule ⟨r, finished⟩
    · simp [cell, shift]
    · simp [State.filter_conflicts, entry, shift]
    · simp [cell]
  | some c =>
    obtain ⟨action, how, settles, cell, conflicts⟩ := State.settles_of_candidates i entry
    refine ⟨s.row g, c.reduces, rows_ofAutomaton state, State.pairwise_reduces entry,
      (State.candidates_spec entry).2, ?_, ?_, ?_, accepts⟩
    · exact iff_of_true ⟨action, cell⟩ settles.candidate
    · rw [conflicts, ← settles.choice_iff]
      cases how <;> simp
    · intro action' there
      cases cell.symm.trans there
      refine ⟨how, fun action' how' => ⟨fun other => other.unique settles, ?_⟩, conflicts⟩
      rintro ⟨rfl, rfl⟩
      exact settles

def sums : List Declaration :=
  [.terminal "a" none, .terminal "PLUS" (some ⟨1, .left⟩), .nonterminal "E",
    .rule ⟨1⟩ [.nonterminal ⟨1⟩, .terminal ⟨4⟩, .nonterminal ⟨1⟩] none, .rule ⟨1⟩ [.terminal ⟨3⟩] none]

/-- Behind a sum, `PLUS` could be shifted; it reduces, because it associates to the left. -/
theorem cells_settled_sums : ∃ g a s row, Grammar.define sums = .ok g ∧
    Automaton.construct g (.compute g) = .ok a ∧ a.states[4]? = some s ∧
    (ofAutomaton g a).rows[4]? = some row ∧ row.actions.get? ⟨4⟩ = some (.reduce ⟨1⟩) ∧
    s.next (.terminal ⟨4⟩) = some 3 ∧
    Settles g ⟨4⟩ (some 3) [⟨1⟩] (.reduce ⟨1⟩) (some .precedence) ∧
    (ofAutomaton g a).conflictsAt 4 ⟨4⟩ =
      [⟨4, ⟨4⟩, some 3, [⟨1⟩], .reduce ⟨1⟩, .precedence⟩] := by
  have check : Automaton.passes sums (fun g a =>
      ((ofAutomaton g a).rows[4]?.any fun row => row.actions.get? ⟨4⟩ = some (.reduce ⟨1⟩)) ∧
      (ofAutomaton g a).conflictsAt 4 ⟨4⟩ =
        [⟨4, ⟨4⟩, some 3, [⟨1⟩], .reduce ⟨1⟩, .precedence⟩]) = true := by
    decide +kernel
  obtain ⟨g, a, defined, built, check⟩ := Automaton.exists_of_passes check
  simp only [decide_eq_true_eq, Option.any_eq_true] at check
  obtain ⟨⟨row, there, cell⟩, conflicts⟩ := check
  have entry := there
  rw [ofAutomaton, Array.getElem?_map] at entry
  obtain ⟨s, state, -⟩ := Option.map_eq_some_iff.1 entry
  obtain ⟨row', reduces, there', -, -, -, -, settled, -⟩ :=
    cells_settled (.steps defined (by decide)) built state ⟨4⟩
  cases there.symm.trans there'
  obtain ⟨how, settles, eq⟩ := settled _ cell
  rw [conflicts] at eq
  cases how with
  | none => cases eq
  | some how =>
    obtain ⟨shift, rfl, rfl⟩ : s.next (.terminal ⟨4⟩) = some 3 ∧ reduces = [⟨1⟩] ∧
        how = .precedence := by simpa [eq_comm] using eq
    rw [shift] at settles
    exact ⟨g, a, s, row, defined, built, state, there, cell, shift, (settles _ _).2 ⟨rfl, rfl⟩,
      conflicts⟩

end ParseTable

end Lalr
