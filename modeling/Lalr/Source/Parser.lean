import Lalr.Source.Scanner
import Lalr.Source.Statement

/-! Reading statements. The language of statements is regular: what may come next depends
only on how far the current statement has got, so a reader takes the tokens one at a time. -/
namespace Lalr.Source

inductive Expectation where
  | token (t : Token)
  | identifier
  | pattern
  | codeBlock
  | declaration
  | symbolOrEmpty
  deriving DecidableEq, Repr

def Expectation.text : Expectation → String
  | token t => t.description
  | identifier => "identifier"
  | pattern => "pattern"
  | codeBlock => "code block"
  | declaration => "declaration"
  | symbolOrEmpty => "symbol or `@empty'"

/-- Settings between an opening brace and `}`. A comma may stand behind the last one. -/
inductive SettingsReader where
  | key (done : List Setting)
  | equals (done : List Setting) (key : String)
  | value (done : List Setting) (key : String)
  | separator (done : List Setting)
  deriving DecidableEq, Repr

namespace SettingsReader

inductive Progress where
  | reading (r : SettingsReader)
  | finished (settings : List Setting)
  deriving DecidableEq, Repr

def expects : SettingsReader → Expectation
  | key _ => .identifier
  | equals _ _ => .token .equals
  | value _ _ => .identifier
  | separator _ => .token .closeBrace

def next? : SettingsReader → Token → Option Progress
  | key done, .closeBrace => some (.finished done)
  | key done, .identifier k => some (.reading (equals done k))
  | equals done k, .equals => some (.reading (value done k))
  | value done k, .identifier v => some (.reading (separator (done ++ [⟨k, v⟩])))
  | separator done, .comma => some (.reading (key done))
  | separator done, .closeBrace => some (.finished done)
  | _, _ => none

end SettingsReader

/-- How far a statement has been read, with what has been read of it. -/
inductive Reader where
  /-- Before a statement. -/
  | declaration
  /-- Behind `@prec`. -/
  | prec
  | precSettings (r : SettingsReader)
  | precName (settings : List Setting)
  /-- Behind `@terminal`. -/
  | terminal
  | terminalSettings (r : SettingsReader)
  /-- Before the name of a terminal. -/
  | definition (settings : List Setting) (done : List TerminalDefinition)
  | defined (settings : List Setting) (done : List TerminalDefinition) (name : String)
  | definitionPattern (settings : List Setting) (done : List TerminalDefinition) (name : String)
  | patterned (settings : List Setting) (done : List TerminalDefinition) (name pattern : String)
  /-- Behind the code of a terminal. -/
  | definitions (settings : List Setting) (done : List TerminalDefinition)
  | pattern (done : List String)
  | patterns (done : List String)
  | nonterminal (done : List String)
  | nonterminals (done : List String)
  | startName
  | ruleName
  | ruleDefine (left : String)
  /-- Before the first alternative, where a bar is optional. -/
  | firstProduction (left : String)
  | production (left : String) (done : List Production)
  | productionSettings (left : String) (done : List Production) (r : SettingsReader)
  | productionBody (left : String) (done : List Production) (settings : List Setting)
  | elements (left : String) (done : List Production) (settings : List Setting)
      (read : List Element)
  /-- Behind `@empty`. -/
  | emptied (left : String) (done : List Production) (settings : List Setting)
  /-- Behind the code of an alternative. -/
  | productions (left : String) (done : List Production)
  | code (place : CodePlace)
  /-- Before the semicolon. -/
  | finished (statement : Statement)
  deriving DecidableEq, Repr

namespace Reader

inductive Progress where
  | reading (r : Reader)
  /-- The semicolon behind a statement has been read. -/
  | ended (statement : Statement)
  deriving DecidableEq, Repr

/-- The expectation named in a message. Where several tokens may follow, it is the one that
comes last in the statement. -/
def expects : Reader → Expectation
  | declaration => .declaration
  | prec | precName _ | terminal | definition _ _ | nonterminal _ | startName | ruleName =>
    .identifier
  | precSettings r | terminalSettings r | productionSettings _ _ r => r.expects
  | definitionPattern _ _ _ | pattern _ => .pattern
  | ruleDefine _ => .token .define
  | firstProduction _ | production _ _ | productionBody _ _ _ => .symbolOrEmpty
  | code _ => .codeBlock
  | defined _ _ _ | patterned _ _ _ _ | definitions _ _ | patterns _ | nonterminals _
  | elements _ _ _ _ | emptied _ _ _ | productions _ _ | finished _ => .token .semicolon

def declarationNext? : Keyword → Option Reader
  | .prec => some prec
  | .terminal => some terminal
  | .whitespace => some (pattern [])
  | .nonterminal => some (nonterminal [])
  | .start => some startName
  | .rule => some ruleName
  | .header => some (code .header)
  | .footer => some (code .footer)
  | .empty | .error => none

def definitionsNext? (settings : List Setting) (done : List TerminalDefinition) :
    Token → Option Progress
  | .comma => some (.reading (definition settings done))
  | .semicolon => some (.ended (.terminal settings done))
  | _ => none

def productionsNext? (left : String) (done : List Production) : Token → Option Progress
  | .bar => some (.reading (production left done))
  | .semicolon => some (.ended (.rule left done))
  | _ => none

def bodyNext? (left : String) (done : List Production) (settings : List Setting) :
    Token → Option Progress
  | .keyword .empty => some (.reading (emptied left done settings))
  | .keyword .error => some (.reading (elements left done settings [.error]))
  | .identifier s => some (.reading (elements left done settings [.name s]))
  | _ => none

def productionNext? (left : String) (done : List Production) : Token → Option Progress
  | .openConfig => some (.reading (productionSettings left done (.key [])))
  | t => bodyNext? left done [] t

def next? : Reader → Token → Option Progress
  | declaration, .keyword k => (declarationNext? k).map .reading
  | prec, .openBrace => some (.reading (precSettings (.key [])))
  | prec, .identifier s => some (.reading (finished (.prec [] s)))
  | precSettings r, t => (r.next? t).map fun
    | .reading r' => .reading (precSettings r')
    | .finished settings => .reading (precName settings)
  | precName settings, .identifier s => some (.reading (finished (.prec settings s)))
  | terminal, .openBrace => some (.reading (terminalSettings (.key [])))
  | terminal, .identifier s => some (.reading (defined [] [] s))
  | terminalSettings r, t => (r.next? t).map fun
    | .reading r' => .reading (terminalSettings r')
    | .finished settings => .reading (definition settings [])
  | definition settings done, .identifier s => some (.reading (defined settings done s))
  | defined settings done s, .equals => some (.reading (definitionPattern settings done s))
  | defined settings done s, .code c =>
    some (.reading (definitions settings (done ++ [⟨s, none, some c⟩])))
  | defined settings done s, t => definitionsNext? settings (done ++ [⟨s, none, none⟩]) t
  | definitionPattern settings done s, .pattern p =>
    some (.reading (patterned settings done s p))
  | patterned settings done s p, .code c =>
    some (.reading (definitions settings (done ++ [⟨s, some p, some c⟩])))
  | patterned settings done s p, t => definitionsNext? settings (done ++ [⟨s, some p, none⟩]) t
  | definitions settings done, t => definitionsNext? settings done t
  | pattern done, .pattern p => some (.reading (patterns (done ++ [p])))
  | patterns done, .comma => some (.reading (pattern done))
  | patterns done, .semicolon => some (.ended (.whitespace done))
  | nonterminal done, .identifier s => some (.reading (nonterminals (done ++ [s])))
  | nonterminals done, .comma => some (.reading (nonterminal done))
  | nonterminals done, .semicolon => some (.ended (.nonterminal done))
  | startName, .identifier s => some (.reading (finished (.start s)))
  | ruleName, .identifier s => some (.reading (ruleDefine s))
  | ruleDefine left, .define => some (.reading (firstProduction left))
  | firstProduction left, .bar => some (.reading (production left []))
  | firstProduction left, t => productionNext? left [] t
  | production left done, t => productionNext? left done t
  | productionSettings left done r, t => (r.next? t).map fun
    | .reading r' => .reading (productionSettings left done r')
    | .finished settings => .reading (productionBody left done settings)
  | productionBody left done settings, t => bodyNext? left done settings t
  | elements left done settings read, .identifier s =>
    some (.reading (elements left done settings (read ++ [.name s])))
  | elements left done settings read, .keyword .error =>
    some (.reading (elements left done settings (read ++ [.error])))
  | elements left done settings read, .code c =>
    some (.reading (productions left (done ++ [⟨settings, read, some c⟩])))
  | elements left done settings read, t =>
    productionsNext? left (done ++ [⟨settings, read, none⟩]) t
  | emptied left done settings, .code c =>
    some (.reading (productions left (done ++ [⟨settings, [], some c⟩])))
  | emptied left done settings, t => productionsNext? left (done ++ [⟨settings, [], none⟩]) t
  | productions left done, t => productionsNext? left done t
  | code place, .code c => some (.reading (finished (.code place c)))
  | finished statement, .semicolon => some (.ended statement)
  | _, _ => none

end Reader

inductive SyntaxFault where
  | invalidToken
  | unexpected (expected : Expectation) (found : Token)
  | unexpectedEnd (expected : Expectation)
  deriving DecidableEq, Repr

def SyntaxFault.text : SyntaxFault → String
  | invalidToken => "invalid token"
  | unexpected e t => "expected " ++ e.text ++ ", found " ++ t.description
  | unexpectedEnd e => "expected " ++ e.text ++ ", found end of input"

structure SyntaxError where
  location : Location
  fault : SyntaxFault
  deriving DecidableEq, Repr

/-- For instance ``3:1: expected declaration, found `='``. -/
def SyntaxError.message (e : SyntaxError) : String := e.location.text ++ ": " ++ e.fault.text

/-- Read statements until the tokens end, which they may do only before a statement.
`last` is the location behind the tokens read so far. -/
def readStatements (reader : Reader) (last : Location) :
    List Located → Except SyntaxError (List Statement)
  | [] =>
    if reader = .declaration then .ok []
    else .error ⟨last, .unexpectedEnd reader.expects⟩
  | t :: rest =>
    match reader.next? t.token with
    | none => .error ⟨t.first, .unexpected reader.expects t.token⟩
    | some (.reading r) => readStatements r t.last rest
    | some (.ended statement) => (readStatements .declaration t.last rest).map (statement :: ·)

def statements (tokens : List Located) : Except SyntaxError (List Statement) :=
  readStatements .declaration {} tokens

/-- The statements of a grammar file. A faulty token hides everything else. -/
def parse (text : String) : Except SyntaxError (List Statement) :=
  match scan text with
  | (_, some fault) => .error ⟨fault, .invalidToken⟩
  | (tokens, none) => statements tokens

end Lalr.Source
