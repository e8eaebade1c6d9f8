import Lalr.Grammar.Builder
import Lalr.Source.Parser

/-! The grammar that a grammar file defines. Statements are taken group by group, so that
symbols are known before the rules that mention them; within a group they keep their order. -/
namespace Lalr

open Source

inductive LoweringError where
  | definition (cause : DefinitionError)
  | precSetting
  | terminalSetting
  | productionSetting
  /-- A terminal asks for a precedence that no statement declares. -/
  | missingPrecedence (name : String)
  /-- An alternative asks for a precedence that no statement declares. -/
  | unknownPrecedence (name : String)
  | unknownStart (name : String)
  | terminalOnLeft (name : String)
  deriving DecidableEq, Repr

def LoweringError.message : LoweringError → String
  | .definition cause => cause.message
  | .precSetting => "unexpected config in @prec desc"
  | .terminalSetting => "unexpected config in @terminal desc"
  | .productionSetting => "unexpected config in production"
  | .missingPrecedence name => "missing precedence name: `" ++ name ++ "'"
  | .unknownPrecedence name => "unknown precedence name: `" ++ name ++ "'"
  | .unknownStart name => "unknown start symbol: `" ++ name ++ "'"
  | .terminalOnLeft name =>
    "the terminal `" ++ name ++ "' cannot be the left-hand side of a rule"

inductive LoadError where
  | syntaxFault (cause : SyntaxError)
  | lowering (cause : LoweringError)
  deriving DecidableEq, Repr

def LoadError.message : LoadError → String
  | .syntaxFault cause => "Syntax error: " ++ cause.message
  | .lowering cause => "Other error: " ++ cause.message

/-- The group of a statement. Groups are taken in ascending order. -/
def Source.Statement.group : Statement → Nat
  | .prec _ _ => 0
  | .terminal _ _ | .whitespace _ => 1
  | .nonterminal _ => 2
  | .rule _ _ => 3
  | .start _ => 4
  | .code _ _ => 5

def Source.Statement.grouped (statements : List Statement) : List Statement :=
  (List.range 6).flatMap fun group => statements.filter (·.group = group)

/-- A grammar under construction, with what the names of the file stand for. -/
structure Scope where
  builder : Builder
  precedences : OrderedMap String Precedence
  nextPriority : UInt16
  terminals : OrderedMap String TerminalId
  nonterminals : OrderedMap String NonterminalId

namespace Scope

def initial : Scope := ⟨.initial, ∅, 0, ∅, ∅⟩

/-- Carry out one operation of the builder; its failure ends the lowering. -/
def build (s : Scope) (operation : Building α) : Except LoweringError (α × Scope) :=
  match s.builder.call operation with
  | (.ok a, b) => .ok (a, { s with builder := b })
  | (.error e, _) => .error (.definition e)

def perform (s : Scope) (operation : Building Unit) : Except LoweringError Scope :=
  (s.build operation).map Prod.snd

def associativity? (value : String) : Option Associativity :=
  if value = "left" then some .left
  else if value = "right" then some .right
  else if value = "none" || value = "nonassoc" then some .nonassociative
  else none

/-- The associativity that the last setting names; without one, operators do not associate. -/
def associativity (settings : List Setting) : Except LoweringError Associativity :=
  settings.foldlM (fun _ setting =>
    if setting.key = "assoc" then
      match associativity? setting.value with
      | some a => .ok a
      | none => .error .precSetting
    else .error .precSetting) .nonassociative

def prec (s : Scope) (settings : List Setting) (name : String) : Except LoweringError Scope := do
  let assoc ← associativity settings
  return { s with
    precedences := s.precedences.insert name ⟨s.nextPriority, assoc⟩
    nextPriority := s.nextPriority + 1 }

def terminalPrecedence (s : Scope) (settings : List Setting) :
    Except LoweringError (Option Precedence) := do
  let name ← settings.foldlM (fun _ setting =>
    if setting.key = "prec" then .ok (some setting.value) else .error .terminalSetting) none
  match name with
  | none => return none
  | some name =>
    match s.precedences.get? name with
    | some p => return some p
    | none => throw (.missingPrecedence name)

def declareTerminal (precedence : Option Precedence) (s : Scope) (d : TerminalDefinition) :
    Except LoweringError Scope := do
  let (t, s) ← s.build (.terminal d.name precedence)
  let s ← match d.pattern with
    | some p => s.perform (.token t p)
    | none => .ok s
  let s ← match d.action with
    | some code => s.perform (.terminalAction t code)
    | none => .ok s
  return { s with terminals := s.terminals.insert d.name t }

def declareNonterminal (s : Scope) (name : String) :
    Except LoweringError (NonterminalId × Scope) := do
  let (n, s) ← s.build (.nonterminal name)
  return (n, { s with nonterminals := s.nonterminals.insert name n })

def leftSide (s : Scope) (name : String) : Except LoweringError (NonterminalId × Scope) :=
  match s.nonterminals.get? name with
  | some n => .ok (n, s)
  | none =>
    if s.terminals.contains name then .error (.terminalOnLeft name)
    else s.declareNonterminal name

/-- The symbol of an element. A name that nothing declares is a nonterminal; that it has no
rules is left to the integrity checks. -/
def element (s : Scope) : Element → Except LoweringError (Symbol × Scope)
  | .error => .ok (.terminal .error, s)
  | .name name =>
    match s.terminals.get? name with
    | some t => .ok (.terminal t, s)
    | none =>
      match s.nonterminals.get? name with
      | some n => .ok (.nonterminal n, s)
      | none => (s.declareNonterminal name).map fun (n, s') => (.nonterminal n, s')

def elements (s : Scope) : List Element → Except LoweringError (List Symbol × Scope)
  | [] => .ok ([], s)
  | e :: rest => do
    let (symbol, s) ← s.element e
    let (symbols, s) ← s.elements rest
    return (symbol :: symbols, s)

def productionPrecedence (s : Scope) (settings : List Setting) :
    Except LoweringError (Option Precedence) :=
  settings.foldlM (fun _ setting =>
    if setting.key = "prec" then
      match s.precedences.get? setting.value with
      | some p => .ok (some p)
      | none => .error (.unknownPrecedence setting.value)
    else .error .productionSetting) none

def production (left : NonterminalId) (s : Scope) (p : Production) :
    Except LoweringError Scope := do
  let precedence ← s.productionPrecedence p.settings
  let (right, s) ← s.elements p.elements
  let (r, s) ← s.build (.rule left right precedence)
  match p.action with
  | some code => s.perform (.action r code)
  | none => return s

def statement (s : Scope) : Statement → Except LoweringError Scope
  | .prec settings name => s.prec settings name
  | .terminal settings definitions => do
    let precedence ← s.terminalPrecedence settings
    definitions.foldlM (declareTerminal precedence) s
  | .whitespace patterns => patterns.foldlM (fun s p => s.perform (.whitespace p)) s
  | .nonterminal names =>
    names.foldlM (fun s name => (s.declareNonterminal name).map Prod.snd) s
  | .start name =>
    match s.nonterminals.get? name with
    | some n => s.perform (.startSymbol n)
    | none => .error (.unknownStart name)
  | .rule left productions => do
    let (n, s) ← s.leftSide left
    productions.foldlM (production n) s
  | .code .header text => s.perform (.header text)
  | .code .footer text => s.perform (.footer text)

end Scope

def Grammar.ofStatements (statements : List Statement) : Except LoweringError Grammar :=
  ((Statement.grouped statements).foldlM Scope.statement .initial).map (·.builder.finish)

def Grammar.ofText (text : String) : Except LoadError Grammar :=
  match parse text with
  | .error e => .error (.syntaxFault e)
  | .ok statements => (Grammar.ofStatements statements).mapError .lowering

end Lalr
