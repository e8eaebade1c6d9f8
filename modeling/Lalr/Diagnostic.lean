import Lalr.Symbol

/-! Findings of a generation run. No stage stops at its first finding; each appends to the
report, and whoever runs the stages looks at the errors between them. -/
namespace Lalr

inductive Severity where
  | error
  | warning
  deriving DecidableEq, Repr

def Severity.text : Severity → String
  | .error => "error"
  | .warning => "warning"

inductive DiagnosticKind where
  /-- A nonterminal that some rule mentions has no rules. -/
  | undefinedSymbol
  /-- A nonterminal cannot be derived from the start symbol. -/
  | unreachableSymbol
  /-- A state has neither actions nor gotos. -/
  | emptyState
  /-- A cell of the parse table had more than one candidate. -/
  | grammarConflict
  /-- The grammar as a whole has no parser. -/
  | malformedGrammar
  /-- The pattern of a token is not well formed. -/
  | invalidPattern
  deriving DecidableEq, Repr

def DiagnosticKind.severity : DiagnosticKind → Severity
  | .unreachableSymbol | .grammarConflict => .warning
  | .undefinedSymbol | .emptyState | .malformedGrammar | .invalidPattern => .error

structure Diagnostic where
  kind : DiagnosticKind
  message : String
  symbol : Option Symbol := none
  rule : Option RuleId := none
  /-- The number of a parser state. -/
  state : Option Nat := none
  deriving DecidableEq, Repr

namespace Diagnostic

def severity (d : Diagnostic) : Severity := d.kind.severity

def text (d : Diagnostic) : String := "[" ++ d.severity.text ++ "] " ++ d.message

end Diagnostic

/-- Findings in the order in which they were made. -/
abbrev Report := List Diagnostic

namespace Report

def ofKind (report : Report) (kind : DiagnosticKind) : Report := report.filter (·.kind = kind)

def count (report : Report) (severity : Severity) : Nat :=
  report.countP (·.severity = severity)

def errorCount (report : Report) : Nat := report.count .error

def warningCount (report : Report) : Nat := report.count .warning

def hasErrors (report : Report) : Bool := report.any (·.severity = .error)

end Report
end Lalr
