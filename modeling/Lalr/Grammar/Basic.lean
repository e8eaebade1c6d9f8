import Lalr.OrderedMap
import Lalr.Symbol

/-! Context-free grammars with precedences, token patterns and attached code. -/
namespace Lalr

inductive Associativity where
  | left
  | right
  | nonassociative
  deriving DecidableEq, Repr

structure Precedence where
  priority : UInt16
  associativity : Associativity
  deriving DecidableEq, Repr

structure Terminal where
  id : TerminalId
  /-- Reserved symbols are not exported. -/
  exportName : Option String
  precedence : Option Precedence
  /-- Code that runs when the token has been matched. -/
  action : Option String
  deriving DecidableEq, Repr

structure Nonterminal where
  id : NonterminalId
  exportName : Option String
  deriving DecidableEq, Repr

structure Rule where
  id : RuleId
  left : NonterminalId
  right : Array Symbol
  precedence : Option Precedence
  /-- Code that computes the value of the left-hand side. -/
  action : Option String
  deriving DecidableEq, Repr

/-- A pattern whose matches are tokens of `terminal`. Of two patterns that match the same
longest text, the one of lower priority wins. -/
structure TokenPattern where
  terminal : TerminalId
  pattern : String
  priority : Nat
  deriving DecidableEq, Repr

structure Grammar where
  terminals : OrderedMap TerminalId Terminal
  nonterminals : OrderedMap NonterminalId Nonterminal
  rules : OrderedMap RuleId Rule
  start : Option NonterminalId
  tokens : List TokenPattern
  header : Option String
  footer : Option String

def Terminal.name (t : Terminal) : String :=
  if t.id = .endOfInput then "$eoi"
  else if t.id = .error then "$error"
  else if t.id = .whitespace then "$whitespace"
  else t.exportName.getD "<unknown>"

def Nonterminal.name (n : Nonterminal) : String :=
  if n.id = .start then "$start" else n.exportName.getD "<unknown>"

def Rule.rightmostTerminal (rule : Rule) : Option TerminalId :=
  rule.right.toList.reverse.findSome? Symbol.terminal?

namespace Grammar

def terminal? (g : Grammar) (t : TerminalId) : Option Terminal := g.terminals.get? t

def nonterminal? (g : Grammar) (n : NonterminalId) : Option Nonterminal := g.nonterminals.get? n

def rule? (g : Grammar) (r : RuleId) : Option Rule := g.rules.get? r

def rulesOf (g : Grammar) (n : NonterminalId) : List Rule :=
  g.rules.values.filter (·.left = n)

def acceptRule (g : Grammar) : Option Rule := g.rule? .accept

/-- The precedence given to the rule, else that of its rightmost terminal. -/
def precedenceOf (g : Grammar) (rule : Rule) : Option Precedence :=
  rule.precedence <|> rule.rightmostTerminal.bind fun t => (g.terminal? t).bind (·.precedence)

def terminalName (g : Grammar) (t : TerminalId) : String :=
  ((g.terminal? t).map (·.name)).getD "<unknown>"

def nonterminalName (g : Grammar) (n : NonterminalId) : String :=
  ((g.nonterminal? n).map (·.name)).getD "<unknown>"

def symbolName (g : Grammar) : Symbol → String
  | .terminal t => g.terminalName t
  | .nonterminal n => g.nonterminalName n

end Grammar
end Lalr
