import Lalr.Grammar.Basic
import Lalr.Text.SymbolName

/-! Stepwise definition of a grammar. The operations work on a builder in place: what they have
changed stays changed, whether they fail afterwards or not. -/
namespace Lalr

inductive DefinitionError where
  | invalidTokenName (name : String)
  | invalidSymbolName (name : String)
  | alreadyExported (name : String)
  | patternOfUndeclared
  | unknownTerminal
  | invalidLeftSide
  | invalidRightSide
  | duplicateRule
  | unknownRule
  | invalidStart
  /-- Whoever defines the grammar gave up for a reason of their own. -/
  | abandoned (reason : String)
  deriving DecidableEq, Repr

def DefinitionError.message : DefinitionError → String
  | .invalidTokenName name => "incorrect token name: `" ++ name ++ "'"
  | .invalidSymbolName name => "incorrect symbol name: `" ++ name ++ "'"
  | .alreadyExported name => "The symbol `" ++ name ++ "' has already been exported"
  | .patternOfUndeclared => "a pattern must be attached to a declared terminal"
  | .unknownTerminal => "unknown terminal symbol"
  | .invalidLeftSide => "invalid left-hand side of production rule"
  | .invalidRightSide => "invalid symbol in the right-hand side of production rule"
  | .duplicateRule => "Duplicate production rule detected"
  | .unknownRule => "unknown production rule"
  | .invalidStart => "invalid start symbol"
  | .abandoned reason => reason

/-- A grammar under construction, with the identifiers that come next. -/
structure Builder where
  terminals : OrderedMap TerminalId Terminal
  nonterminals : OrderedMap NonterminalId Nonterminal
  rules : OrderedMap RuleId Rule
  tokens : List TokenPattern
  start : Option NonterminalId
  header : Option String
  footer : Option String
  nextTerminal : TerminalId
  nextNonterminal : NonterminalId
  nextRule : RuleId

namespace Builder

def reservedTerminal (id : TerminalId) : TerminalId × Terminal := (id, ⟨id, none, none, none⟩)

def initial : Builder where
  terminals := .ofList
    [reservedTerminal .endOfInput, reservedTerminal .error, reservedTerminal .whitespace]
  nonterminals := .ofList [(.start, ⟨.start, none⟩)]
  rules := ∅
  tokens := []
  start := none
  header := none
  footer := none
  nextTerminal := .firstFree
  nextNonterminal := .firstFree
  nextRule := .firstFree

def isExported (b : Builder) (name : String) : Bool :=
  b.terminals.values.any (·.exportName == some name) ||
    b.nonterminals.values.any (·.exportName == some name)

def allowsOnRight (b : Builder) : Symbol → Bool
  | .terminal t => t ≠ .endOfInput && b.terminals.contains t
  | .nonterminal n => n ≠ .start && b.nonterminals.contains n

/-- The start symbol that was set, else the left-hand side of the first rule. -/
def effectiveStart (b : Builder) : Option NonterminalId :=
  b.start <|> b.rules.values.head?.map (·.left)

def acceptingRule (start : NonterminalId) : Rule :=
  ⟨.accept, .start, #[.nonterminal start], none, none⟩

/-- The grammar defined so far. The accepting rule comes before all others. -/
def finish (b : Builder) : Grammar where
  terminals := b.terminals
  nonterminals := b.nonterminals
  rules :=
    let first := match b.effectiveStart with
      | some n => [(RuleId.accept, acceptingRule n)]
      | none => []
    .ofList (first ++ b.rules.toList)
  start := b.effectiveStart
  tokens := b.tokens
  header := b.header
  footer := b.footer

end Builder

abbrev Building := ExceptT DefinitionError (StateM Builder)

/-- Carry out an operation: its answer, and the builder that it leaves. -/
def Builder.call (b : Builder) (operation : Building α) : Except DefinitionError α × Builder :=
  operation.run.run b

namespace Building

def terminal (name : String) (precedence : Option Precedence) : Building TerminalId := do
  if !Text.isSymbolName name then throw (.invalidTokenName name)
  if (← get).isExported name then throw (.alreadyExported name)
  let id := (← get).nextTerminal
  modify fun b => { b with nextTerminal := id.next }
  modify fun b => { b with terminals := b.terminals.insert id ⟨id, some name, precedence, none⟩ }
  return id

def nonterminal (name : String) : Building NonterminalId := do
  if !Text.isSymbolName name then throw (.invalidSymbolName name)
  if (← get).isExported name then throw (.alreadyExported name)
  let id := (← get).nextNonterminal
  modify fun b => { b with nextNonterminal := id.next }
  modify fun b => { b with nonterminals := b.nonterminals.insert id ⟨id, some name⟩ }
  return id

/-- Attach a pattern. Its priority is the number of patterns attached before. -/
def token (t : TerminalId) (pattern : String) : Building Unit := do
  if !(← get).terminals.contains t || t = .endOfInput then throw .patternOfUndeclared
  let priority := (← get).tokens.length
  modify fun b => { b with tokens := b.tokens ++ [⟨t, pattern, priority⟩] }

def whitespace (pattern : String) : Building Unit := token .whitespace pattern

def terminalAction (t : TerminalId) (code : String) : Building Unit := do
  match (← get).terminals.get? t with
  | none => throw .unknownTerminal
  | some terminal => modify fun b =>
    { b with terminals := b.terminals.insert t { terminal with action := some code } }

def rule (left : NonterminalId) (right : List Symbol) (precedence : Option Precedence) :
    Building RuleId := do
  if left = .start || !(← get).nonterminals.contains left then throw .invalidLeftSide
  if !right.all (← get).allowsOnRight then throw .invalidRightSide
  if (← get).rules.values.any fun r => r.left = left && r.right.toList = right then
    throw .duplicateRule
  let id := (← get).nextRule
  modify fun b => { b with nextRule := id.next }
  modify fun b => { b with
    rules := b.rules.insert id ⟨id, left, right.toArray, precedence, none⟩ }
  return id

def action (r : RuleId) (code : String) : Building Unit := do
  match (← get).rules.get? r with
  | none => throw .unknownRule
  | some rule => modify fun b =>
    { b with rules := b.rules.insert r { rule with action := some code } }

def startSymbol (n : NonterminalId) : Building Unit := do
  if n = .start || !(← get).nonterminals.contains n then throw .invalidStart
  modify fun b => { b with start := some n }

def header (code : String) : Building Unit := modify fun b => { b with header := some code }

def footer (code : String) : Building Unit := modify fun b => { b with footer := some code }

end Building

inductive Declaration where
  | terminal (name : String) (precedence : Option Precedence)
  | nonterminal (name : String)
  | rule (left : NonterminalId) (right : List Symbol) (precedence : Option Precedence)
  | token (t : TerminalId) (pattern : String)
  | whitespace (pattern : String)
  | terminalAction (t : TerminalId) (code : String)
  | action (r : RuleId) (code : String)
  | start (n : NonterminalId)
  | header (code : String)
  | footer (code : String)
  deriving DecidableEq, Repr

inductive Declared where
  | symbol (s : Symbol)
  | rule (r : RuleId)
  | nothing
  deriving DecidableEq, Repr

def Building.declare : Declaration → Building Declared
  | .terminal name precedence => (fun t => .symbol (.terminal t)) <$> terminal name precedence
  | .nonterminal name => (fun n => .symbol (.nonterminal n)) <$> nonterminal name
  | .rule left right precedence => .rule <$> rule left right precedence
  | .token t pattern => (fun _ => .nothing) <$> token t pattern
  | .whitespace pattern => (fun _ => .nothing) <$> whitespace pattern
  | .terminalAction t code => (fun _ => .nothing) <$> terminalAction t code
  | .action r code => (fun _ => .nothing) <$> action r code
  | .start n => (fun _ => .nothing) <$> startSymbol n
  | .header code => (fun _ => .nothing) <$> header code
  | .footer code => (fun _ => .nothing) <$> footer code

namespace Builder

def declare (b : Builder) (d : Declaration) : Except DefinitionError Declared × Builder :=
  b.call (.declare d)

/-- Take every step, each on the builder that the one before it left, failed or not. -/
def declareAll (b : Builder) : List Declaration →
    List (Except DefinitionError Declared) × Builder
  | [] => ([], b)
  | d :: rest =>
    let (result, b) := b.declare d
    let (results, last) := b.declareAll rest
    (result :: results, last)

def attempt (b : Builder) (d : Declaration) : Except DefinitionError Builder :=
  match b.declare d with
  | (.ok _, b) => .ok b
  | (.error e, _) => .error e

end Builder

/-- Take the steps up to the first that fails. -/
def Grammar.define (steps : List Declaration) : Except DefinitionError Grammar :=
  (steps.foldlM Builder.attempt Builder.initial).map Builder.finish

end Lalr
