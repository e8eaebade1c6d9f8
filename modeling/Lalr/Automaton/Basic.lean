import Lalr.Automaton.Closure
import Lalr.Text.Basic

/-! LALR(1) automata. States are numbered from 0, the initial state; there are at most 65536
of them. -/
namespace Lalr

structure State where
  /-- The items that define the state, in ascending order. -/
  kernel : List Item
  /-- The kernel and its closure, with lookaheads. -/
  items : ItemSet
  shifts : OrderedMap TerminalId Nat
  gotos : OrderedMap NonterminalId Nat

structure Automaton where
  states : Array State

def stateLimit : Nat := 65536

inductive AutomatonError where
  /-- States are numbered with 16 bits. -/
  | tooManyStates
  deriving DecidableEq, Repr

def AutomatonError.message : AutomatonError → String
  | .tooManyStates => "the automaton needs more than " ++ toString stateLimit ++ " states"

/-- For instance `S#007`. -/
def stateName (i : Nat) : String := "S#" ++ Text.paddedDecimal 3 i

namespace State

def reduces (g : Grammar) (s : State) : List (RuleId × TerminalSet) :=
  (s.items.toList.filter fun (i, _) => (i.nextSymbol g).isNone).map fun (i, lookaheads) =>
    (i.rule, lookaheads)

def text (g : Grammar) (s : State) : String :=
  let item := fun (i : Item) (lookaheads : TerminalSet) =>
    (if s.kernel.contains i then "* " else "- ") ++ i.text g ++ " [" ++
      ",".intercalate (lookaheads.toList.map fun t => " " ++ g.terminalName t) ++ " ]\n"
  let section_ := fun (title : String) (lines : List String) =>
    if lines.isEmpty then "" else title ++ String.join lines
  "## items:\n" ++ String.join (s.items.toList.map fun (i, l) => item i l) ++
    section_ "## shifts:\n" (s.shifts.toList.map fun (t, j) =>
      "- " ++ g.terminalName t ++ " => " ++ stateName j ++ "\n") ++
    section_ "## gotos:\n" (s.gotos.toList.map fun (n, j) =>
      "- " ++ g.nonterminalName n ++ " => " ++ stateName j ++ "\n")

end State

def Automaton.text (g : Grammar) (a : Automaton) : String :=
  "\n".intercalate (a.states.toList.zipIdx.map fun (s, i) =>
    "#### State " ++ stateName i ++ "\n" ++ s.text g)

end Lalr
