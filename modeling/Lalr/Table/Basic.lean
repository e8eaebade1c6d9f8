import Lalr.Automaton.Basic

/-! Parse tables. -/
namespace Lalr

inductive Action where
  | shift (state : Nat)
  | reduce (rule : RuleId)
  | accept
  /-- An operator that does not associate stands beside one of its own precedence. -/
  | error
  deriving DecidableEq, Repr

/-- How a cell with several candidates was settled. -/
inductive Resolution where
  /-- Precedence and associativity of both sides decided. -/
  | precedence
  /-- One side has no precedence; the shift is taken. -/
  | preferShift
  /-- Of several rules the first is taken. -/
  | earliestRule
  deriving DecidableEq, Repr

structure Conflict where
  state : Nat
  lookahead : TerminalId
  shift : Option Nat
  /-- The competing rules in ascending order. -/
  reduces : List RuleId
  resolved : Action
  resolution : Resolution
  deriving DecidableEq, Repr

/-- Settled by what the grammar declares, so not worth a warning. -/
def Conflict.isSilent (c : Conflict) : Bool :=
  c.resolution == .precedence && c.reduces.length == 1

structure Row where
  /-- Actions in ascending order of lookaheads. -/
  actions : OrderedMap TerminalId Action
  gotos : OrderedMap NonterminalId Nat
  /-- The rule that most cells reduce by, for lookaheads without a cell. -/
  defaultReduce : Option RuleId

structure ParseTable where
  /-- One row for each state. -/
  rows : Array Row
  conflicts : List Conflict

structure TableStats where
  states : Nat
  shifts : Nat
  reduces : Nat
  gotos : Nat
  conflicts : Nat
  deriving DecidableEq, Repr

def Action.isShift : Action → Bool
  | .shift _ => true
  | _ => false

/-- Accepting is reducing by the accepting rule. -/
def Action.isReduce : Action → Bool
  | .reduce _ | .accept => true
  | _ => false

namespace ParseTable

def stats (t : ParseTable) : TableStats :=
  let actions := t.rows.toList.flatMap fun row => row.actions.values
  { states := t.rows.size
    shifts := actions.countP Action.isShift
    reduces := actions.countP Action.isReduce
    gotos := (t.rows.toList.flatMap fun row => row.gotos.values).length
    conflicts := t.conflicts.length }

/-- A table that some states have lost their actions and gotos in, for checks to find. -/
def clear (t : ParseTable) (states : List Nat) : ParseTable :=
  { t with
    rows := states.foldl (fun rows i =>
      rows.modify i fun row => { row with actions := ∅, gotos := ∅ }) t.rows }

end ParseTable
end Lalr
