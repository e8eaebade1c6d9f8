import Lalr.Proofs.Automaton.Exact
import Lalr.Table.Fill

/-! What stands in the cells of a parse table. An action other than an error is one of the
candidates of its cell, whichever way conflicts were settled; without conflicts each candidate is
the action of its cell. -/
namespace Lalr

/-- A rule whose right-hand side has been read, with `t` among its lookaheads. -/
def State.Finished (g : Grammar) (s : State) (r : RuleId) (t : TerminalId) : Prop :=
  ∃ i : Item, i.rule = r ∧ i.nextSymbol g = none ∧ t ∈ (s.items.get? i).getD ∅

namespace Candidates

variable {g : Grammar} {t : TerminalId} {c : Candidates} {k : Nat} {r : RuleId}

theorem ofRule_eq_reduce {r' : RuleId} (h : Action.ofRule r' = .reduce r) :
    r' = r ∧ r ≠ .accept := by
  unfold Action.ofRule at h
  split at h
  · cases h
  · next other =>
    cases h
    exact ⟨rfl, other⟩

/-- The action of a cell is its shift, the first of its rules, or an error. -/
theorem resolve_cases (g : Grammar) (t : TerminalId) (c : Candidates) :
    (∃ k, c.shift = some k ∧ (c.resolve g t).1 = .shift k) ∨
    (∃ r ∈ c.reduces, (c.resolve g t).1 = .ofRule r) ∨ (c.resolve g t).1 = .error := by
  unfold resolve
  split
  · next k shift _ => exact .inl ⟨k, shift, rfl⟩
  · next r _ reduces => exact .inr (.inl ⟨r, by simp [reduces], rfl⟩)
  · next r _ _ _ reduces => exact .inr (.inl ⟨r, by simp [reduces], rfl⟩)
  · next k r _ shift reduces =>
    dsimp only
    split
    · exact .inl ⟨k, shift, rfl⟩
    · exact .inr (.inr rfl)
    · exact .inr (.inl ⟨r, by simp [reduces], rfl⟩)
    · exact .inl ⟨k, shift, rfl⟩
  · exact .inr (.inr rfl)

/-- A cell without a conflict has at most one candidate. -/
theorem resolve_of_none (h : (c.resolve g t).2 = none) :
    (∀ k, c.shift = some k → (c.resolve g t).1 = .shift k) ∧
    ∀ r ∈ c.reduces, (c.resolve g t).1 = .ofRule r := by
  unfold resolve at h ⊢
  split at h
  · next k shift reduces => simp [shift, reduces]
  · next r shift reduces => simp [shift, reduces]
  · cases h
  · dsimp only at h
    split at h <;> cases h
  · next shift reduces => simp [shift, reduces]

end Candidates

namespace State

variable {g : Grammar} {s : State} {t : TerminalId} {k : Nat} {r : RuleId} {c : Candidates}

theorem mem_reductions : (t, r) ∈ (s.reduces g).flatMap
    (fun (r, lookaheads) => lookaheads.toList.map (·, r)) ↔ s.Finished g r t := by
  simp only [reduces, List.mem_flatMap, List.mem_map, List.mem_filter, Prod.exists]
  constructor
  · rintro ⟨_, l, ⟨i, _, ⟨member, none⟩, eq⟩, u, inSet, same⟩
    cases eq
    cases same
    refine ⟨i, rfl, Option.isNone_iff_eq_none.1 none, ?_⟩
    rw [OrderedMap.mem_toList_iff.1 member, Option.getD_some]
    exact TerminalSet.mem_toList.1 inSet
  · rintro ⟨i, rfl, none, inSet⟩
    cases entry : s.items.get? i with
    | none => simp [entry] at inSet
    | some l =>
      rw [entry, Option.getD_some] at inSet
      exact ⟨_, l, ⟨i, l, ⟨OrderedMap.mem_toList_iff.2 entry, by simp [none]⟩, rfl⟩, t,
        TerminalSet.mem_toList.2 inSet, rfl⟩

/-- Adding reductions to cells one after the other. -/
theorem foldl_addReduce (cells : List (TerminalId × RuleId))
    (m : OrderedMap TerminalId Candidates) :
    let last := cells.foldl (fun m (t, r) => m.insert t (((m.get? t).getD {}).addReduce r)) m
    (∀ t, t ∈ last.keys ↔ t ∈ m.keys ∨ ∃ r, (t, r) ∈ cells) ∧
    (∀ t, ((last.get? t).getD {}).shift = ((m.get? t).getD {}).shift) ∧
    ∀ t r, r ∈ ((last.get? t).getD {}).reduces ↔
      r ∈ ((m.get? t).getD {}).reduces ∨ (t, r) ∈ cells := by
  induction cells generalizing m with
  | nil => simp
  | cons e rest ih =>
    obtain ⟨u, r⟩ := e
    dsimp only [List.foldl_cons]
    obtain ⟨keys, shifts, reduces⟩ := ih (m.insert u (((m.get? u).getD {}).addReduce r))
    have entry (t : TerminalId) : ((m.insert u (((m.get? u).getD {}).addReduce r)).get? t).getD {} =
        if t = u then ((m.get? t).getD {}).addReduce r else (m.get? t).getD {} := by
      rw [OrderedMap.get?_insert]
      by_cases same : t = u <;> simp [same]
    refine ⟨fun t => ?_, fun t => ?_, fun t r' => ?_⟩
    · rw [keys, OrderedMap.mem_keys_insert]
      simp only [List.mem_cons, Prod.mk.injEq, exists_or, exists_and_left, exists_eq, and_true]
      exact or_assoc.trans or_left_comm
    · rw [shifts, entry]
      split <;> rfl
    · rw [reduces, entry]
      by_cases same : t = u
      · simp [same, Candidates.addReduce, or_assoc]
      · simp [same]

/-- The cells before the rules are put in order. -/
theorem candidates_eq (g : Grammar) (s : State) : ∃ all : OrderedMap TerminalId Candidates,
    s.candidates g = all.mapValues (fun _ c => { c with reduces := sortedSet c.reduces }) ∧
    (∀ t, t ∈ all.keys ↔ (∃ k, s.next (.terminal t) = some k) ∨ ∃ r, s.Finished g r t) ∧
    (∀ t, ((all.get? t).getD {}).shift = s.next (.terminal t)) ∧
    ∀ t r, r ∈ ((all.get? t).getD {}).reduces ↔ s.Finished g r t := by
  have start (t : TerminalId) :
      (s.shifts.mapValues fun _ i => ({ shift := some i } : Candidates)).get? t =
        (s.next (.terminal t)).map fun i => { shift := some i } := OrderedMap.get?_mapValues ..
  obtain ⟨keys, shifts, reduces⟩ := foldl_addReduce ((s.reduces g).flatMap
    fun (r, lookaheads) => lookaheads.toList.map (·, r))
    (s.shifts.mapValues fun _ i => ({ shift := some i } : Candidates))
  refine ⟨_, rfl, fun t => ?_, fun t => ?_, fun t r => ?_⟩
  · rw [keys, OrderedMap.mem_keys_iff, start]
    simp only [mem_reductions]
    cases s.next (.terminal t) <;> simp
  · rw [shifts, start]
    cases s.next (.terminal t) <;> rfl
  · rw [reduces, mem_reductions, start]
    cases s.next (.terminal t) <;> simp

/-- A cell has the shift of the state and the rules that are finished there. -/
theorem candidates_spec (entry : (s.candidates g).get? t = some c) :
    c.shift = s.next (.terminal t) ∧ ∀ r, r ∈ c.reduces ↔ s.Finished g r t := by
  obtain ⟨all, eq, -, shifts, reduces⟩ := candidates_eq g s
  rw [eq, OrderedMap.get?_mapValues] at entry
  obtain ⟨d, there, rfl⟩ := Option.map_eq_some_iff.1 entry
  have shift := shifts t
  have rules := reduces t
  rw [there, Option.getD_some] at shift rules
  exact ⟨shift, fun r => mem_sortedSet.trans (rules r)⟩

theorem mem_keys_candidates : t ∈ (s.candidates g).keys ↔
    (∃ k, s.next (.terminal t) = some k) ∨ ∃ r, s.Finished g r t := by
  obtain ⟨all, eq, keys, -⟩ := candidates_eq g s
  simp only [eq, OrderedMap.keys_mapValues, keys]

theorem get?_row_actions (g : Grammar) (s : State) (t : TerminalId) :
    (s.row g).actions.get? t = ((s.candidates g).get? t).map fun c => (c.resolve g t).1 := by
  simp only [row, OrderedMap.get?_sortKeys, OrderedMap.get?_mapValues]

end State

theorem mem_keys_reductionCounts {actions : List Action} {r : RuleId} :
    r ∈ (reductionCounts actions).keys → .reduce r ∈ actions := by
  refine List.foldlRecOn actions _ (motive := fun counts : OrderedMap RuleId Nat =>
    r ∈ counts.keys → .reduce r ∈ actions) (fun member => ?_) ?_
  · exact absurd member List.not_mem_nil
  intro counts counted a here member
  cases a with
  | reduce r' =>
    rcases OrderedMap.mem_keys_insert.1 member with rfl | old
    · exact here
    · exact counted old
  | shift _ => exact counted member
  | accept => exact counted member
  | error => exact counted member

theorem mem_of_mostCounted {counts : List (RuleId × Nat)} {r : RuleId}
    (h : mostCounted counts = some r) : r ∈ counts.map Prod.fst := by
  obtain ⟨e, most, rfl⟩ := Option.map_eq_some_iff.1 h
  apply List.mem_map_of_mem
  revert most
  refine List.foldlRecOn counts _ (motive := fun best => best = some e → e ∈ counts) nofun ?_
  intro best counted f here most
  dsimp only at most
  split at most
  · exact Option.some.inj most ▸ here
  · split at most
    · exact Option.some.inj most ▸ here
    · exact counted most

/-- A row whose cells choose among the candidates of a state, or leave none of them. -/
structure Row.Chooses (g : Grammar) (s : State) (row : Row) : Prop where
  action : ∀ t action, row.actions.get? t = some action →
    (∃ k, s.next (.terminal t) = some k ∧ action = .shift k) ∨
    (∃ r, s.Finished g r t ∧ action = .ofRule r) ∨ action = .error
  default : ∀ r, row.defaultReduce = some r → ∃ t, row.actions.get? t = some (.reduce r)
  gotos : ∀ n, row.gotos.get? n = s.next (.nonterminal n)

/-- However conflicts are settled, a row chooses among the candidates. -/
theorem State.row_chooses (g : Grammar) (s : State) : (s.row g).Chooses g s where
  action t action there := by
    rw [get?_row_actions] at there
    obtain ⟨c, entry, rfl⟩ := Option.map_eq_some_iff.1 there
    obtain ⟨shift, reduces⟩ := candidates_spec entry
    rcases c.resolve_cases g t with ⟨k, isShift, eq⟩ | ⟨r, isRule, eq⟩ | eq
    · exact .inl ⟨k, shift ▸ isShift, eq⟩
    · exact .inr (.inl ⟨r, (reduces r).1 isRule, eq⟩)
    · exact .inr (.inr eq)
  default r chosen := by
    have counted := mem_keys_reductionCounts (mem_of_mostCounted chosen)
    exact OrderedMap.mem_values_iff.1 counted
  gotos _ := rfl

structure Row.Decided (g : Grammar) (s : State) (row : Row) : Prop where
  shift : ∀ t k, s.next (.terminal t) = some k → row.actions.get? t = some (.shift k)
  finished : ∀ t r, s.Finished g r t → row.actions.get? t = some (.ofRule r)
  gotos : ∀ n, row.gotos.get? n = s.next (.nonterminal n)

theorem State.row_decided {g : Grammar} {s : State} {i : Nat} (none : s.conflicts g i = []) :
    (s.row g).Decided g s := by
  have single (t : TerminalId) (c : Candidates) (entry : (s.candidates g).get? t = some c) :
      (c.resolve g t).2 = .none := by
    have := List.filterMap_eq_nil_iff.1 none (t, c) (OrderedMap.mem_toList_iff.2 entry)
    simpa using this
  constructor
  case shift =>
    intro t k edge
    obtain ⟨c, entry⟩ := OrderedMap.mem_keys_iff.1 (mem_keys_candidates.2 (.inl ⟨k, edge⟩))
    rw [get?_row_actions, entry, Option.map_some, Option.some.injEq]
    exact (Candidates.resolve_of_none (single t c entry)).1 k
      ((candidates_spec entry).1.trans edge)
  case finished =>
    intro t r done
    obtain ⟨c, entry⟩ := OrderedMap.mem_keys_iff.1 (mem_keys_candidates.2 (.inr ⟨r, done⟩))
    rw [get?_row_actions, entry, Option.map_some, Option.some.injEq]
    exact (Candidates.resolve_of_none (single t c entry)).2 r
      (((candidates_spec entry).2 r).2 done)
  case gotos => exact fun _ => rfl

namespace ParseTable

variable {g : Grammar} {a : Automaton} {i : Nat} {s : State}

theorem rows_ofAutomaton (state : a.states[i]? = some s) :
    (ofAutomaton g a).rows[i]? = some (s.row g) := by
  simp only [ofAutomaton, Array.getElem?_map, state, Option.map_some]

theorem conflicts_of_ofAutomaton (none : (ofAutomaton g a).conflicts = [])
    (state : a.states[i]? = some s) : s.conflicts g i = [] := by
  apply List.flatMap_eq_nil_iff.1 none (s, i)
  rw [List.mem_zipIdx_iff_getElem?]
  simpa using state

end ParseTable
end Lalr
