import Lalr.Proofs.Lookup.Automaton
import Lalr.Proofs.Table.Resolution

/-! Filling the table finds every terminal and every rule that it looks up, and no cell is
without a candidate. The terminals of lookahead sets are declared: each is the end of the input or
the first terminal of some form, and the terminals of forms stand in rules. -/
namespace Lalr

structure State.Closed (g : Grammar) (s : State) : Prop where
  ruled : s.items.Ruled g
  lookaheads : ∀ i t, t ∈ (s.items.get? i).getD ∅ → t ∈ g.terminals.keys
  shifts : ∀ t k, s.next (.terminal t) = some k → t ∈ g.terminals.keys

/-- Edges lead to states, on symbols that some rule mentions. -/
theorem Automaton.IsLALR.edge {g : Grammar} {a : Automaton} (lalr : a.IsLALR g) {i k : Nat}
    {s : State} {X : Symbol} (state : a.states[i]? = some s) (edge : s.next X = some k) :
    k < a.states.size ∧ ∃ rule ∈ g.rules.values, X ∈ rule.right.toList := by
  obtain ⟨γ, path⟩ := lalr.reached i s state
  have path' : a.walk (γ ++ [X]) = some k := by
    rw [walk_concat, path, Option.bind_some, follow, state, Option.bind_some, edge]
  constructor
  · obtain ⟨s', target⟩ := lalr.state _ k path'
    exact (Array.getElem?_eq_some_iff.1 target).1
  · obtain ⟨b, core⟩ := (lalr.path _).1 ⟨k, path'⟩
    rw [Grammar.canonical_eq_close] at core
    obtain ⟨j, inKernel⟩ := core.exists_kernel
    rw [Grammar.canonicalKernel_append] at inKernel
    obtain ⟨_, -, next, -⟩ := inKernel
    exact Grammar.mem_right_of_next next

theorem Automaton.IsLALR.closed {g : Grammar} {a : Automaton} (lalr : a.IsLALR g)
    (closed : g.Closed) (accept : g.start.isSome) {i : Nat} {s : State}
    (state : a.states[i]? = some s) : s.Closed g := by
  obtain ⟨γ, path⟩ := lalr.reached i s state
  constructor
  case ruled =>
    intro j member
    have core := (lalr.items γ i s path state j).1 member
    obtain ⟨-, rule, known, -⟩ := Grammar.core_split closed.wellFormed accept core
    exact ⟨rule, known⟩
  case lookaheads =>
    intro j t member
    obtain ⟨δ, -, inSet⟩ := (lalr.lookaheads i s state j t).1 member
    exact closed.wellFormed.linked.canonical_lookahead closed.endOfInput inSet
  case shifts =>
    intro t k edge
    obtain ⟨-, rule, inRules, inRight⟩ := lalr.edge state edge
    exact (closed.wellFormed.terminal rule inRules t inRight).2

theorem Automaton.construct_closed {g : Grammar} {a : Automaton} (closed : g.Closed)
    (built : Automaton.construct g (.compute g) = .ok a) {i : Nat} {s : State}
    (state : a.states[i]? = some s) : s.Closed g := by
  cases start : g.start with
  | none =>
    rw [Automaton.eq_empty_of_no_start closed.wellFormed start built] at state
    cases state
  | some n =>
    have accept : g.start.isSome := by rw [start]; rfl
    exact (construct_isLALR closed.wellFormed accept built).closed closed accept state

/-- As `precedenceOf`, where the rightmost terminal has to be found. That nothing is declared is no
miss. -/
def Grammar.precedenceOf? (g : Grammar) (rule : Rule) : Option (Option Precedence) :=
  match rule.precedence, rule.rightmostTerminal with
  | some p, _ => some (some p)
  | none, some t => (g.terminal? t).map (·.precedence)
  | none, none => some none

/-- As `resolve`, where the terminal and the first rule have to be found, and so has a candidate. -/
def Candidates.resolve? (g : Grammar) (lookahead : TerminalId) (c : Candidates) :
    Option (Action × Option Resolution) :=
  match c.shift, c.reduces with
  | some i, [] => some (.shift i, none)
  | none, [r] => some (.ofRule r, none)
  | none, r :: _ => some (.ofRule r, some .earliestRule)
  | some i, r :: others => do
    let shiftPrecedence := (← g.terminal? lookahead).precedence
    let rulePrecedence ← g.precedenceOf? (← g.rule? r)
    match Precedence.compare shiftPrecedence rulePrecedence with
    | some .shift => return (.shift i, some .precedence)
    | some .neither => return (.error, some .precedence)
    | some .reduce =>
      return (.ofRule r, some (if others.isEmpty then .precedence else .earliestRule))
    | none => return (.shift i, some .preferShift)
  | none, [] => none

namespace State

def reduces? (g : Grammar) (s : State) : Option (List (RuleId × TerminalSet)) :=
  s.items.toList.filterMapM fun (i, lookaheads) => do
    return if (← i.nextSymbol? g).isNone then some (i.rule, lookaheads) else none

def candidates? (g : Grammar) (s : State) : Option (OrderedMap TerminalId Candidates) := do
  let shifts := s.shifts.mapValues fun _ i => ({ shift := some i } : Candidates)
  let cells := (← s.reduces? g).flatMap fun (r, lookaheads) => lookaheads.toList.map (·, r)
  let all := cells.foldl (fun m (t, r) => m.insert t (((m.get? t).getD {}).addReduce r)) shifts
  return all.mapValues fun _ c => { c with reduces := sortedSet c.reduces }

def row? (g : Grammar) (s : State) : Option Row := do
  let cells ← (← s.candidates? g).mapValues? fun t c => (c.resolve? g t).map Prod.fst
  let actions := cells.sortKeys
  return ⟨actions, s.gotos, defaultReduce actions.values⟩

def conflicts? (g : Grammar) (i : Nat) (s : State) : Option (List Conflict) := do
  (← s.candidates? g).toList.filterMapM fun (t, c) => do
    let (resolved, resolution) ← c.resolve? g t
    return resolution.map fun resolution => ⟨i, t, c.shift, c.reduces, resolved, resolution⟩

end State

def Action.text? (g : Grammar) : Action → Option String
  | .shift i => some ("shift(" ++ stateName i ++ ")")
  | .reduce r => (g.ruleIdText? r).map fun rule => "reduce(" ++ rule ++ ")"
  | .accept => some "accept"
  | .error => some "error"

def Conflict.text? (g : Grammar) (c : Conflict) : Option String := do
  let lookahead ← g.terminalName? c.lookahead
  let reduces ← c.reduces.mapM fun r => (g.ruleIdText? r).map fun rule => " reduce(" ++ rule ++ ")"
  let resolved ← c.resolved.text? g
  return c.kindText ++ " conflict in state " ++ stateName c.state ++ " on `" ++ lookahead ++ "':" ++
    (match c.shift with
      | some i => " shift(" ++ stateName i ++ "),"
      | none => "") ++
    ",".intercalate reduces ++ "; resolved as " ++ resolved

namespace ParseTable

/-- As `ofAutomaton`, where everything that is looked up has to be found. -/
def ofAutomaton? (g : Grammar) (a : Automaton) : Option ParseTable := do
  let rows ← a.states.toList.mapM (State.row? g)
  let conflicts ← a.states.toList.zipIdx.mapM fun (s, i) => s.conflicts? g i
  return ⟨rows.toArray, conflicts.flatten⟩

def warnings? (g : Grammar) (t : ParseTable) : Option Report :=
  (t.conflicts.filter fun c => !c.isSilent).mapM fun c => do
    let message ← c.text? g
    return {
      kind := .grammarConflict
      message
      symbol := some (.terminal c.lookahead)
      state := some c.state }

end ParseTable

variable {g : Grammar} {rule : Rule} {t : TerminalId} {c : Candidates} {s : State}

theorem Grammar.WellFormed.precedenceOf?_eq (wf : g.WellFormed) (member : rule ∈ g.rules.values) :
    g.precedenceOf? rule = some (g.precedenceOf rule) := by
  rw [precedenceOf?, precedenceOf]
  cases rule.precedence with
  | some p => rfl
  | none =>
    cases rightmost : rule.rightmostTerminal with
    | none => rfl
    | some t =>
      obtain ⟨X, inRight, isTerminal⟩ := List.exists_of_findSome?_eq_some rightmost
      have same : X = .terminal t := by
        cases X <;> simp_all [Symbol.terminal?]
      have declared := (wf.terminal rule member t (same ▸ List.mem_reverse.1 inRight)).2
      obtain ⟨terminal, known⟩ := OrderedMap.mem_keys_iff.1 declared
      simp [terminal?, known]

structure Candidates.Closed (g : Grammar) (t : TerminalId) (c : Candidates) : Prop where
  declared : t ∈ g.terminals.keys
  candidate : c.shift ≠ none ∨ c.reduces ≠ []
  ruled : ∀ r ∈ c.reduces, ∃ rule, g.rule? r = some rule

theorem Candidates.Closed.resolve?_eq (wf : g.WellFormed) (h : c.Closed g t) :
    c.resolve? g t = some (c.resolve g t) := by
  obtain ⟨declared, candidate, ruled⟩ := h
  obtain ⟨_ | i, _ | ⟨r, others⟩⟩ := c
  case none.nil => simp at candidate
  case none.cons => cases others <;> rfl
  case some.nil => rfl
  case some.cons =>
    obtain ⟨terminal, entry⟩ := OrderedMap.mem_keys_iff.1 declared
    obtain ⟨rule, known⟩ := ruled r (List.mem_cons_self ..)
    simp only [resolve?, resolve, Grammar.terminal?, entry, known, bind, Option.bind_some,
      wf.precedenceOf?_eq (Grammar.mem_rules known)]
    cases Precedence.compare terminal.precedence (g.precedenceOf rule) with
    | none => rfl
    | some preference => cases preference <;> rfl

/-- A cell without a candidate would be noticed. -/
example : Candidates.resolve? g t {} = none := rfl

/-- The action of a cell is named by a rule that is known, if by any. -/
theorem Candidates.Closed.text?_eq (wf : g.WellFormed) (h : c.Closed g t) :
    (c.resolve g t).1.text? g = some ((c.resolve g t).1.text g) := by
  rcases c.resolve_cases g t with ⟨k, -, eq⟩ | ⟨r, member, eq⟩ | eq
  · rw [eq]
    rfl
  · obtain ⟨rule, known⟩ := h.ruled r member
    rw [eq, Action.ofRule]
    split
    · rfl
    · rw [Action.text?, wf.ruleIdText?_eq known]
      rfl
  · rw [eq]
    rfl

namespace State

variable {i : Nat} {e : Conflict}

theorem Closed.reduces?_eq (h : s.Closed g) : s.reduces? g = some (s.reduces g) := by
  have all : s.reduces? g = some (s.items.toList.filterMap fun (i, lookaheads) =>
      if (i.nextSymbol g).isNone then some (i.rule, lookaheads) else none) := by
    refine filterMapM_eq fun e member => ?_
    obtain ⟨rule, known⟩ := h.ruled e.1 (List.mem_map_of_mem member)
    dsimp only
    rw [Item.nextSymbol?_eq known]
    rfl
  rw [all, reduces, ← List.filterMap_eq_map, List.filterMap_filter]
  rfl

theorem Closed.candidates?_eq (h : s.Closed g) : s.candidates? g = some (s.candidates g) := by
  rw [candidates?, candidates, h.reduces?_eq]
  rfl

theorem Closed.cell (h : s.Closed g) (entry : (s.candidates g).get? t = some c) : c.Closed g t := by
  obtain ⟨shift, reduces⟩ := candidates_spec entry
  constructor
  case declared =>
    rcases mem_keys_candidates.1 (OrderedMap.mem_keys_of_get? entry) with
      ⟨k, edge⟩ | ⟨r, i, -, -, member⟩
    · exact h.shifts t k edge
    · exact h.lookaheads i t member
  case candidate =>
    rcases mem_keys_candidates.1 (OrderedMap.mem_keys_of_get? entry) with ⟨k, edge⟩ | ⟨r, done⟩
    · exact .inl (by simp [shift, edge])
    · exact .inr (List.ne_nil_of_mem ((reduces r).2 done))
  case ruled =>
    intro r member
    obtain ⟨i, rfl, -, inSet⟩ := (reduces r).1 member
    exact h.ruled i (s.items.supported i t inSet)

theorem Closed.row?_eq (wf : g.WellFormed) (h : s.Closed g) : s.row? g = some (s.row g) := by
  have cells : (s.candidates g).mapValues? (fun t c => (c.resolve? g t).map Prod.fst) =
      some ((s.candidates g).mapValues fun t c => (c.resolve g t).1) :=
    OrderedMap.mapValues?_eq fun t c entry => by
      rw [(h.cell entry).resolve?_eq wf, Option.map_some]
  rw [row?, row, h.candidates?_eq]
  simp only [bind, Option.bind_some, cells]
  rfl

theorem Closed.conflicts?_eq (wf : g.WellFormed) (h : s.Closed g) (i : Nat) :
    s.conflicts? g i = some (s.conflicts g i) := by
  rw [conflicts?, conflicts, h.candidates?_eq]
  refine filterMapM_eq fun e member => ?_
  dsimp only
  rw [(h.cell (OrderedMap.mem_toList_iff.1 member)).resolve?_eq wf]
  rfl

theorem Closed.text?_eq (wf : g.WellFormed) (h : s.Closed g) (member : e ∈ s.conflicts g i) :
    e.text? g = some (e.text g) := by
  obtain ⟨c, how, entry, -, eq⟩ := mem_conflicts.1 member
  have cell := h.cell entry
  have reduces : c.reduces.mapM (fun r => (g.ruleIdText? r).map fun rule =>
      " reduce(" ++ rule ++ ")") =
      some (c.reduces.map fun r => " reduce(" ++ g.ruleIdText r ++ ")") := by
    refine mapM_eq fun r inCell => ?_
    obtain ⟨rule, known⟩ := cell.ruled r inCell
    rw [wf.ruleIdText?_eq known, Option.map_some]
  rw [Conflict.text?, Conflict.text, Grammar.terminalName?_eq cell.declared, eq]
  simp only [bind, Option.bind_some, reduces, cell.text?_eq wf]
  rfl

end State

namespace ParseTable

variable {a : Automaton}

theorem ofAutomaton?_eq (closed : g.Closed) (built : Automaton.construct g (.compute g) = .ok a) :
    ofAutomaton? g a = some (ofAutomaton g a) := by
  have rows : a.states.toList.mapM (State.row? g) = some (a.states.toList.map (State.row g)) := by
    refine mapM_eq fun s member => ?_
    obtain ⟨i, state⟩ := List.mem_iff_getElem?.1 member
    rw [Array.getElem?_toList] at state
    exact (Automaton.construct_closed closed built state).row?_eq closed.wellFormed
  have conflicts : a.states.toList.zipIdx.mapM (fun (s, i) => s.conflicts? g i) =
      some (a.states.toList.zipIdx.map fun (s, i) => s.conflicts g i) := by
    refine mapM_eq fun e member => ?_
    have state := List.mem_zipIdx_iff_getElem?.1 member
    rw [Array.getElem?_toList] at state
    exact (Automaton.construct_closed closed built state).conflicts?_eq closed.wellFormed e.2
  rw [ofAutomaton?, rows]
  simp only [bind, Option.bind_some, conflicts, ofAutomaton, pure, ← Array.toList_map,
    Array.toArray_toList, List.flatMap]

theorem warnings?_eq (closed : g.Closed) (built : Automaton.construct g (.compute g) = .ok a) :
    (ofAutomaton g a).warnings? g = some ((ofAutomaton g a).warnings g) := by
  refine mapM_eq fun e member => ?_
  obtain ⟨⟨s, i⟩, inStates, inState⟩ := List.mem_flatMap.1 (List.mem_filter.1 member).1
  have state := List.mem_zipIdx_iff_getElem?.1 inStates
  rw [Array.getElem?_toList] at state
  rw [(Automaton.construct_closed closed built state).text?_eq closed.wellFormed inState]
  rfl

end ParseTable
end Lalr
