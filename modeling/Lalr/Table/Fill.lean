import Lalr.Diagnostic
import Lalr.SortedSet
import Lalr.Table.Text

/-! Filling the parse table from the automaton. Where a cell has several candidates, declared
precedences decide, else a shift is preferred, else the rule declared first. -/
namespace Lalr

structure Candidates where
  shift : Option Nat := none
  reduces : List RuleId := []
  deriving DecidableEq, Repr, Inhabited

/-- Which side of a shift and a reduction the declared precedences favour. -/
inductive Preference where
  | shift
  | reduce
  | neither
  deriving DecidableEq, Repr

/-- The higher priority wins. On equal priority operators group to the left by reducing and
to the right by shifting. -/
def Precedence.compare : Option Precedence → Option Precedence → Option Preference
  | some s, some r =>
    if r.priority < s.priority then some .shift
    else if s.priority < r.priority then some .reduce
    else match s.associativity with
      | .left => some .reduce
      | .right => some .shift
      | .nonassociative => some .neither
  | _, _ => none

def Action.ofRule (r : RuleId) : Action := if r = .accept then .accept else .reduce r

namespace Candidates

/-- The action of a cell, and how it was chosen if there was a choice. The rules of the
candidates are in ascending order. -/
def resolve (g : Grammar) (lookahead : TerminalId) (c : Candidates) :
    Action × Option Resolution :=
  match c.shift, c.reduces with
  | some i, [] => (.shift i, none)
  | none, [r] => (.ofRule r, none)
  | none, r :: _ => (.ofRule r, some .earliestRule)
  | some i, r :: others =>
    let shiftPrecedence := (g.terminal? lookahead).bind (·.precedence)
    let rulePrecedence := (g.rule? r).bind g.precedenceOf
    match Precedence.compare shiftPrecedence rulePrecedence with
    | some .shift => (.shift i, some .precedence)
    | some .neither => (.error, some .precedence)
    | some .reduce =>
      (.ofRule r, some (if others.isEmpty then .precedence else .earliestRule))
    | none => (.shift i, some .preferShift)
  | none, [] => (.error, none)

def addReduce (c : Candidates) (r : RuleId) : Candidates := { c with reduces := c.reduces ++ [r] }

end Candidates

namespace State

/-- The candidates of each lookahead: shifts first, then the finished rules one by one. -/
def candidates (g : Grammar) (s : State) : OrderedMap TerminalId Candidates :=
  let shifts := s.shifts.mapValues fun _ i => ({ shift := some i } : Candidates)
  let cells := (s.reduces g).flatMap fun (r, lookaheads) => lookaheads.toList.map (·, r)
  let all := cells.foldl (fun m (t, r) => m.insert t (((m.get? t).getD {}).addReduce r)) shifts
  all.mapValues fun _ c => { c with reduces := sortedSet c.reduces }

end State

def reductionCounts (actions : List Action) : OrderedMap RuleId Nat :=
  actions.foldl (fun counts a =>
    match a with
    | .reduce r => counts.insert r ((counts.get? r).getD 0 + 1)
    | _ => counts) ∅

/-- The rule with the highest count; of equal ones the lowest rule. -/
def mostCounted (counts : List (RuleId × Nat)) : Option RuleId :=
  (counts.foldl (fun (best : Option (RuleId × Nat)) (r, n) =>
    match best with
    | none => some (r, n)
    | some (r', n') =>
      if n' < n ∨ n' = n ∧ r.raw < r'.raw then some (r, n) else some (r', n')) none).map Prod.fst

def defaultReduce (actions : List Action) : Option RuleId :=
  mostCounted (reductionCounts actions).toList

def State.row (g : Grammar) (s : State) : Row :=
  let actions := ((s.candidates g).mapValues fun t c => (c.resolve g t).1).sortKeys
  ⟨actions, s.gotos, defaultReduce actions.values⟩

/-- The cells of state number `i` that had a choice, in the order in which the cells were
first touched. -/
def State.conflicts (g : Grammar) (i : Nat) (s : State) : List Conflict :=
  (s.candidates g).toList.filterMap fun (t, c) =>
    let (resolved, resolution) := c.resolve g t
    resolution.map fun resolution => ⟨i, t, c.shift, c.reduces, resolved, resolution⟩

namespace ParseTable

def ofAutomaton (g : Grammar) (a : Automaton) : ParseTable where
  rows := a.states.map (State.row g)
  conflicts := a.states.toList.zipIdx.flatMap fun (s, i) => s.conflicts g i

def warnings (g : Grammar) (t : ParseTable) : Report :=
  (t.conflicts.filter fun c => !c.isSilent).map fun c =>
    { kind := .grammarConflict
      message := c.text g
      symbol := some (.terminal c.lookahead)
      state := some c.state }

def checkEmptyStates (t : ParseTable) : Report :=
  (t.rows.toList.zipIdx.filter fun (row, _) => row.actions.isEmpty && row.gotos.isEmpty).map
    fun (_, i) =>
      { kind := .emptyState
        message := "the state " ++ stateName i ++ " has no actions"
        state := some i }

end ParseTable
end Lalr
