import Lalr.Emit.DefaultTemplate
import Lalr.Emit.Placeholder
import Lalr.Lexer.Dfa
import Lalr.Table.Basic
import Lalr.Grammar.Text
import Lalr.Text.Basic
import Lalr.Text.Quoted

/-! The source text of a parser: tables written out into a template. Symbols, rules, states
and classes appear as their numbers, in arrays that are indexed by them. -/
namespace Lalr.Emit

structure Parts where
  grammar : Grammar
  table : ParseTable
  dfa : Lexer.Dfa

def commaSeparated (items : List String) : String := ", ".intercalate items

def pair (a b : String) : String := "(" ++ a ++ ", " ++ b ++ ")"

def optionalNumber (n : Option Nat) : String :=
  match n with
  | some n => "Some(" ++ toString n ++ ")"
  | none => "None"

def actionText : Action → String
  | .shift i => "Action::Shift(" ++ toString i ++ ")"
  | .reduce r => "Action::Reduce(" ++ toString r.raw.toNat ++ ")"
  | .accept => "Action::Accept"
  | .error => "Action::Error"

namespace Parts

def actionCells (row : Row) : List String :=
  row.actions.sortKeys.toList.map fun (t, a) => pair (toString t.raw.toNat) (actionText a)

def gotoCells (row : Row) : List String :=
  row.gotos.sortKeys.toList.map fun (n, i) => pair (toString n.raw.toNat) (toString i)

def rowLines (t : ParseTable) (cells : Row → List String) : String :=
  String.join (t.rows.toList.zipIdx.map fun (row, i) =>
    "    /* " ++ stateName i ++ " */ &[" ++ commaSeparated (cells row) ++ "],\n")

def tables (p : Parts) : String :=
  let defaults := p.table.rows.toList.map fun row =>
    optionalNumber (row.defaultReduce.map (·.raw.toNat))
  let rules := p.grammar.rules.values.map fun rule =>
    pair (toString rule.left.raw.toNat) (toString rule.right.size)
  "static ACTIONS: &[&[(u16, Action)]] = &[\n" ++ rowLines p.table actionCells ++ "];\n" ++
    "static GOTOS: &[&[(u16, u16)]] = &[\n" ++ rowLines p.table gotoCells ++ "];\n" ++
    "static DEFAULT_REDUCE: &[Option<u16>] = &[" ++ commaSeparated defaults ++ "];\n" ++
    "/// `(left-hand side, length of right-hand side)` of each rule.\n" ++
    "static RULES: &[(u16, usize)] = &[" ++ commaSeparated rules ++ "];\n"

def transitionCells (s : Lexer.DfaState) : List String :=
  s.transitions.sortKeys.toList.map fun (k, j) => pair (toString k) (toString j)

def dfaTables (p : Parts) : String :=
  let classes := Lexer.allBytes.map fun b => toString (p.dfa.classes.get b)
  let states := p.dfa.states.toList
  "static BYTE_CLASSES: [u16; 256] = [" ++ commaSeparated classes ++ "];\n" ++
    "static DFA_TRANSITIONS: &[&[(u16, u32)]] = &[\n" ++
    String.join (states.map fun s =>
      "    &[" ++ commaSeparated (transitionCells s) ++ "],\n") ++ "];\n" ++
    "static DFA_ACCEPT: &[Option<u16>] = &[" ++
    commaSeparated (states.map fun s => optionalNumber (s.accept.map (·.raw.toNat))) ++ "];\n"

def labels (p : Parts) : String :=
  let terminals := p.grammar.terminals.values.map fun t => Text.quoted t.name
  let nonterminals := p.grammar.nonterminals.values.map fun n => Text.quoted n.name
  "static TERMINAL_LABELS: &[&str] = &[" ++ commaSeparated terminals ++ "];\n" ++
    "static NONTERMINAL_LABELS: &[&str] = &[" ++ commaSeparated nonterminals ++ "];\n"

def arm (comment : String) (number : Nat) (code : String) : String :=
  "// " ++ comment ++ "\n" ++ toString number ++ " => \x7b " ++ Text.trim code ++ " \x7d\n"

def terminalActions (p : Parts) : String :=
  String.join (p.grammar.terminals.values.filterMap fun t =>
    t.action.map (arm t.name t.id.raw.toNat))

def ruleActions (p : Parts) : String :=
  String.join (p.grammar.rules.values.filterMap fun rule =>
    rule.action.map (arm (p.grammar.ruleText rule) rule.id.raw.toNat))

def expand (p : Parts) : Placeholder → String
  | .header => p.grammar.header.getD "pub type Value = ();"
  | .footer => p.grammar.footer.getD ""
  | .tables => p.tables
  | .dfa => p.dfaTables
  | .labels => p.labels
  | .terminalActions => p.terminalActions
  | .actions => p.ruleActions
  | .errorToken => toString TerminalId.error.raw.toNat
  | .endOfInput => toString TerminalId.endOfInput.raw.toNat
  | .whitespace => toString TerminalId.whitespace.raw.toNat

/-- The template with its placeholders expanded. Expansions are not read again. -/
def render (p : Parts) (template : String) : String :=
  (segments template.toList).foldl (fun out segment =>
    match segment with
    | .char c => out.push c
    | .placeholder name => out ++ p.expand name) ""

end Parts
end Lalr.Emit
