import Lalr.Grammar.Basic

/-! Grammars and rules as readable text. -/
namespace Lalr

def Associativity.text : Associativity → String
  | .left => "left"
  | .right => "right"
  | .nonassociative => "nonassoc"

def Precedence.text (p : Precedence) : String :=
  "(priority=" ++ toString p.priority.toNat ++ ", assoc=" ++ p.associativity.text ++ ")"

namespace Grammar

/-- For instance `Sum := Sum PLUS Term`, or `Sum := @empty`. -/
def ruleText (g : Grammar) (rule : Rule) : String :=
  g.nonterminalName rule.left ++ " :=" ++
    if rule.right.isEmpty then " @empty"
    else String.join (rule.right.toList.map fun s => " " ++ g.symbolName s)

def ruleIdText (g : Grammar) (r : RuleId) : String :=
  ((g.rule? r).map g.ruleText).getD "<unknown>"

def withPrecedence (name : String) (precedence : Option Precedence) : String :=
  match precedence with
  | some p => name ++ " " ++ p.text ++ "\n"
  | none => name ++ "\n"

def text (g : Grammar) : String :=
  let terminals := g.terminals.values.map fun t => withPrecedence t.name t.precedence
  let nonterminals := g.nonterminals.values.map fun n =>
    n.name ++ (if g.start = some n.id then " (start)" else "") ++ "\n"
  let rules := g.rules.values.map fun r => withPrecedence (g.ruleText r) r.precedence
  let tokens := g.tokens.map fun t =>
    g.terminalName t.terminal ++ " = \"" ++ t.pattern ++ "\"\n"
  "## terminals:\n" ++ String.join terminals ++
    "\n## nonterminals:\n" ++ String.join nonterminals ++
    "\n## rules:\n" ++ String.join rules ++
    if g.tokens.isEmpty then "" else "\n## tokens:\n" ++ String.join tokens

end Grammar
end Lalr
