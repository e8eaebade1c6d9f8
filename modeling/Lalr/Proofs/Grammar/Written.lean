import Lalr.Proofs.Grammar.Declarations
import Lalr.Proofs.Grammar.Defined
import Mathlib.Data.List.Dedup
import Mathlib.Tactic.IntervalCases

/-! What a grammar file says, read off its statements in the order of the file, and what it means
that a grammar is the one that is written there. -/
namespace Lalr

namespace Source

def lastSetting (key : String) (settings : List Setting) : Option String :=
  ((settings.filter (·.key = key)).getLast?).map (·.value)

def writtenPrecedences (statements : List Statement) : List (List Setting × String) :=
  statements.flatMap fun
    | .prec settings name => [(settings, name)]
    | _ => []

/-- Later levels have higher priorities. -/
def precedenceLevels (statements : List Statement) : List (String × Nat × Associativity) :=
  (writtenPrecedences statements).mapIdx fun i (settings, name) =>
    (name, i, ((lastSetting "assoc" settings).bind Scope.associativity?).getD .nonassociative)

/-- Of the levels with the same name the last one counts. -/
def precedenceNamed (statements : List Statement) (name : String) : Option (Nat × Associativity) :=
  (precedenceLevels statements).reverse.lookup name

def writtenTerminals (statements : List Statement) : List (List Setting × TerminalDefinition) :=
  statements.flatMap fun
    | .terminal settings definitions => definitions.map (settings, ·)
    | _ => []

def terminalNames (statements : List Statement) : List String :=
  (writtenTerminals statements).map (·.2.name)

/-- Patterns with the names of their terminals; those without a name are of white space. -/
def writtenPatterns (statements : List Statement) : List (Option String × String) :=
  statements.flatMap fun
    | .terminal _ definitions =>
      definitions.filterMap fun d => d.pattern.map fun pattern => (some d.name, pattern)
    | .whitespace patterns => patterns.map (none, ·)
    | _ => []

def declaredNames (statements : List Statement) : List String :=
  statements.flatMap fun
    | .nonterminal names => names
    | _ => []

def Element.name? : Element → Option String
  | name s => some s
  | error => none

def usedNames (statements : List Statement) : List String :=
  statements.flatMap fun
    | .rule left productions => left :: productions.flatMap (·.elements.filterMap Element.name?)
    | _ => []

def writtenRules (statements : List Statement) : List (String × Production) :=
  statements.flatMap fun
    | .rule left productions => productions.map (left, ·)
    | _ => []

def startNames (statements : List Statement) : List String :=
  statements.flatMap fun
    | .start name => [name]
    | _ => []

def writtenCode (place : CodePlace) (statements : List Statement) : List String :=
  statements.flatMap fun
    | .code place' text => if place' = place then [text] else []
    | _ => []

def mentionedNames (statements : List Statement) : List String :=
  declaredNames statements ++ usedNames statements

def nonterminalNames (statements : List Statement) : List String :=
  (mentionedNames statements).filter (· ∉ terminalNames statements)

def Element.symbol (symbol : String → Symbol) : Element → Symbol
  | name s => symbol s
  | error => .terminal .error

/-- A file that identifiers of 16 bits are enough for. -/
structure Moderate (statements : List Statement) : Prop where
  precedences : (writtenPrecedences statements).length < 65000
  terminals : (writtenTerminals statements).length < 65000
  nonterminals : (nonterminalNames statements).dedup.length < 65000
  rules : (writtenRules statements).length < 65000

end Source

def Precedence.level (p : Precedence) : Nat × Associativity := (p.priority.toNat, p.associativity)

open Source

/-- The grammar that is written in a file, where names stand for these symbols. -/
structure Grammar.Lowers (g : Grammar) (statements : List Statement) (symbol : String → Symbol) :
    Prop where
  terminal : ∀ name, (∃ t, symbol name = .terminal t) ↔ name ∈ terminalNames statements
  terminal_named : ∀ name t, symbol name = .terminal t →
    (g.terminal? t).bind Terminal.exportName = some name
  nonterminal_named : ∀ name ∈ mentionedNames statements, ∀ n,
    symbol name = .nonterminal n → (g.nonterminal? n).bind Nonterminal.exportName = some name
  injective : ∀ name ∈ terminalNames statements ++ mentionedNames statements,
    ∀ name' ∈ terminalNames statements ++ mentionedNames statements,
      symbol name = symbol name' → name = name'
  nonterminals : ∀ name, some name ∈ g.nonterminals.values.map Nonterminal.exportName ↔
    name ∈ nonterminalNames statements
  terminal_ids : g.terminals.values.map (·.id.raw.toNat) = List.range g.terminals.size
  terminals : g.terminals.values.map (fun t =>
      (t.exportName, t.precedence.map (some ·.level), t.action)) =
    List.replicate 3 (none, none, none) ++ (writtenTerminals statements).map
      fun (settings, d) => (some d.name,
        (lastSetting "prec" settings).map (precedenceNamed statements), d.action)
  tokens : g.tokens.map (fun p => (Symbol.terminal p.terminal, p.pattern, p.priority)) =
    (writtenPatterns statements).mapIdx fun i (name, pattern) =>
      ((name.map symbol).getD (.terminal .whitespace), pattern, i)
  rule_ids : g.userRules.map (·.id.raw.toNat) = List.range' 1 g.userRules.length
  rules : g.userRules.map (fun r =>
      (Symbol.nonterminal r.left, r.right.toList, r.precedence.map (some ·.level), r.action)) =
    (writtenRules statements).map fun (left, p) => (symbol left, p.elements.map (·.symbol symbol),
      (lastSetting "prec" p.settings).map (precedenceNamed statements), p.action)
  undefined : ∀ name ∈ nonterminalNames statements,
    name ∉ (writtenRules statements).map Prod.fst →
    ∃ n, symbol name = .nonterminal n ∧ g.rulesOf n = []
  start : g.start.map Symbol.nonterminal =
    ((startNames statements).getLast? <|> (writtenRules statements).head?.map Prod.fst).map symbol
  header : g.header = (writtenCode .header statements).getLast?
  footer : g.footer = (writtenCode .footer statements).getLast?

/-! ## Grouping -/

/-- What only one group contributes to comes from the statements of that group. -/
theorem Source.flatMap_group {f : Statement → List α} {group : Nat}
    (only : ∀ st, st.group ≠ group → f st = []) (statements : List Statement) (k : Nat) :
    (statements.filter (·.group = k)).flatMap f =
      if k = group then statements.flatMap f else [] := by
  induction statements with
  | nil => simp
  | cons st rest ih =>
    by_cases here : st.group = k
    · rw [List.filter_cons_of_pos (by simpa using here), List.flatMap_cons, ih]
      split
      · rw [List.flatMap_cons]
      · next other => rw [only st (here ▸ other), List.append_nil]
    · rw [List.filter_cons_of_neg (by simpa using here), ih]
      split
      · next same => rw [List.flatMap_cons, only st (same ▸ here), List.nil_append]
      · rfl

/-- It is the same in the order of groups. -/
theorem Source.flatMap_grouped {f : Statement → List α} {group : Nat} (group_lt : group < 6)
    (only : ∀ st, st.group ≠ group → f st = []) (statements : List Statement) :
    (Statement.grouped statements).flatMap f = statements.flatMap f := by
  rw [Statement.grouped, List.flatMap_assoc]
  simp only [flatMap_group only]
  interval_cases group <;> simp [List.range_succ]

end Lalr
