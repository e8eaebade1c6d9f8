import Lalr.Automaton.Construct
import Lalr.Integrity
import Lalr.Lexer.Minimal
import Lalr.Lexer.Subset
import Lalr.Lexer.Thompson
import Lalr.Table.Fill

/-! One generation run, from a grammar to its parse table and its lexer. The stages come in a
fixed order; once an error has been reported, those that follow are left out. -/
namespace Lalr

/-- The automaton of all token patterns. A pattern that is not well formed is reported and
left out. -/
def lexerNfa (g : Grammar) : Lexer.Nfa × Report :=
  g.tokens.foldl (fun (nfa, report) t =>
    match nfa.compile t with
    | .ok (_, nfa') => (nfa', report)
    | .error e =>
      (nfa, report ++ [{
        kind := .invalidPattern
        message := "token `" ++ g.terminalName t.terminal ++ "': pattern \"" ++ t.pattern ++
          "\": " ++ e.message
        symbol := some (.terminal t.terminal) }])) (.empty, [])

/-- What a run produced. Stages that were left out have produced nothing. -/
structure Output where
  report : Report
  first : Option FirstSets := none
  automaton : Option Automaton := none
  table : Option ParseTable := none
  nfa : Option Lexer.Nfa := none
  /-- The automaton of the subset construction. -/
  rawDfa : Option Lexer.Dfa := none
  /-- The automaton that code is generated from. -/
  dfa : Option Lexer.Dfa := none

def Output.isSuccess (o : Output) : Bool := !o.report.hasErrors

/-- The lexer stages, entered when nothing before them has failed. -/
def Output.addLexer (o : Output) (g : Grammar) (minimize : Bool) : Output :=
  let (nfa, report) := lexerNfa g
  let o := { o with report := o.report ++ report, nfa := some nfa }
  if o.report.hasErrors then o
  else
    let raw := nfa.toDfa
    { o with rawDfa := some raw, dfa := some (if minimize then raw.minimize else raw) }

def generate (g : Grammar) (minimize : Bool) : Output :=
  let first := FirstSets.compute g
  let report := Integrity.check g
  if report.hasErrors then { report, first := some first }
  else
    match Automaton.construct g first with
    | .error e =>
      {
        report := report ++ [{ kind := .malformedGrammar, message := e.message }]
        first := some first }
    | .ok automaton =>
      let table := ParseTable.ofAutomaton g automaton
      let report := report ++ table.warnings g ++ table.checkEmptyStates
      let o : Output :=
        { report, first := some first, automaton := some automaton, table := some table }
      if report.hasErrors then o else o.addLexer g minimize

end Lalr
