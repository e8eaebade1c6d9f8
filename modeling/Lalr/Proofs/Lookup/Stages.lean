import Lalr.Proofs.Grammar.Defined
import Lalr.Proofs.Lookup.Minimal
import Lalr.Proofs.Lookup.Patterns
import Lalr.Proofs.Lookup.Subset
import Lalr.Proofs.Lookup.Table

/-! A run of all stages in which a single miss, in a stage or in the text of a report, leaves
nothing. For every grammar that a builder makes it yields what the run without these checks
yields, as long as the identifiers of rules have not run out. -/
namespace Lalr

def Output.addLexer? (o : Output) (g : Grammar) (minimize : Bool) : Option Output := do
  let (nfa, report) ← lexerNfa? g
  let o := { o with report := o.report ++ report, nfa := some nfa }
  if o.report.hasErrors then return o
  else
    let raw ← nfa.toDfa?
    let dfa ← if minimize then raw.minimize? else some raw
    return { o with rawDfa := some raw, dfa := some dfa }

/-- As `generate`, where everything that is looked up has to be found. -/
def generate? (g : Grammar) (minimize : Bool) : Option Output := do
  let first ← FirstSets.compute? g
  let report ← Integrity.check? g
  if report.hasErrors then return { report, first := some first }
  else
    match ← Automaton.construct? g first with
    | .error e =>
      return {
        report := report ++ [{ kind := .malformedGrammar, message := e.message }]
        first := some first }
    | .ok automaton =>
      let table ← ParseTable.ofAutomaton? g automaton
      let report := report ++ (← table.warnings? g) ++ table.checkEmptyStates
      let o : Output :=
        { report, first := some first, automaton := some automaton, table := some table }
      if report.hasErrors then return o else o.addLexer? g minimize

/-- Each stage finds what it looks up, whatever the reports of the stages before it say. -/
structure Grammar.NoMiss (g : Grammar) : Prop where
  first : FirstSets.compute? g = some (.compute g)
  integrity : Integrity.check? g = some (Integrity.check g)
  automaton : Automaton.construct? g (.compute g) = some (Automaton.construct g (.compute g))
  table : ∀ a, Automaton.construct g (.compute g) = .ok a →
    ParseTable.ofAutomaton? g a = some (.ofAutomaton g a)
  warnings : ∀ a, Automaton.construct g (.compute g) = .ok a →
    (ParseTable.ofAutomaton g a).warnings? g = some ((ParseTable.ofAutomaton g a).warnings g)
  patterns : lexerNfa? g = some (lexerNfa g)
  lexer : (lexerNfa g).1.toDfa? = some (lexerNfa g).1.toDfa
  minimal : (lexerNfa g).1.toDfa.minimize? = some (lexerNfa g).1.toDfa.minimize

namespace Grammar

variable {g : Grammar}

theorem Closed.noMiss (closed : g.Closed) : g.NoMiss where
  first := (FirstSets.compute?_eq closed.wellFormed.linked).1
  integrity := Integrity.check?_eq closed.wellFormed
  automaton := Automaton.construct?_eq closed.wellFormed
  table _ built := ParseTable.ofAutomaton?_eq closed built
  warnings _ built := ParseTable.warnings?_eq closed built
  patterns := lexerNfa?_eq closed
  lexer := by
    obtain ⟨entries, holds⟩ := Lexer.Nfa.exists_holds g.tokens
    rw [Lexer.lexerNfa_eq_ofTokens]
    exact Lexer.Nfa.toDfa?_eq holds.bounded holds.start_lt
  minimal := by
    rw [Lexer.lexerNfa_eq_ofTokens]
    exact Lexer.Dfa.minimize?_eq (Lexer.toDfa_proper g.tokens)

theorem NoMiss.addLexer?_eq (h : g.NoMiss) (o : Output) (minimize : Bool) :
    o.addLexer? g minimize = some (o.addLexer g minimize) := by
  rw [Output.addLexer?, Output.addLexer, h.patterns]
  simp only [bind, Option.bind_some]
  split
  · rfl
  · rw [h.lexer, Option.bind_some]
    cases minimize with
    | false => rfl
    | true =>
      rw [if_pos rfl, h.minimal]
      rfl

theorem NoMiss.generate?_eq (h : g.NoMiss) (minimize : Bool) :
    generate? g minimize = some (generate g minimize) := by
  rw [generate?, generate, h.first]
  simp only [bind, Option.bind_some, h.integrity]
  split
  · rfl
  · rw [h.automaton, Option.bind_some]
    cases built : Automaton.construct g (.compute g) with
    | error e => rfl
    | ok a =>
      simp only [h.table a built, h.warnings a built, Option.bind_some]
      split
      · rfl
      · exact h.addLexer?_eq _ minimize

/-- Grammars defined step by step and those defined by a file alike. -/
theorem Defined.noMiss (defined : g.Defined) : g.NoMiss := by
  obtain ⟨n, b, path, few, rfl⟩ := defined.leads
  exact (path.closed few).noMiss

end Grammar

namespace Builder

variable {steps : List Declaration}

/-- No lookup of a run misses, however many of the steps that define the grammar fail, unless
more rules are declared than there are identifiers. -/
theorem declareAll_noMiss
    (few : ((initial.accepted steps).filterMap Declaration.rule?).length < UInt16.size) :
    (initial.declareAll steps).2.finish.NoMiss ∧
      ∀ minimize, generate? (initial.declareAll steps).2.finish minimize =
        some (generate (initial.declareAll steps).2.finish minimize) := by
  rw [← Declaration.sum_ruleCount] at few
  have found := (declareAll_leads.closed few).noMiss
  exact ⟨found, found.generate?_eq⟩

/-- Steps of which the second declaration of a rule fails, for a grammar with a conflict between
shifting `PLUS` and reducing. -/
def ambiguousSums : List Declaration :=
  [.terminal "a" none, .terminal "PLUS" none, .nonterminal "E",
    .rule ⟨1⟩ [.nonterminal ⟨1⟩, .terminal ⟨4⟩, .nonterminal ⟨1⟩] none,
    .rule ⟨1⟩ [.terminal ⟨3⟩] none, .rule ⟨1⟩ [.terminal ⟨3⟩] none, .token ⟨3⟩ "a+",
    .token ⟨4⟩ "\\+", .whitespace " "]

theorem declareAll_noMiss_ambiguousSums :
    ((initial.accepted ambiguousSums).filterMap Declaration.rule?).length = 2 ∧
      (initial.declareAll ambiguousSums).2.finish.NoMiss ∧
      ∀ minimize, generate? (initial.declareAll ambiguousSums).2.finish minimize =
        some (generate (initial.declareAll ambiguousSums).2.finish minimize) := by
  have two : ((initial.accepted ambiguousSums).filterMap Declaration.rule?).length = 2 := by
    decide +kernel
  exact ⟨two, declareAll_noMiss (by rw [two]; decide)⟩

/-- In a grammar without nonterminals there is no FIRST set for the left-hand side of a rule. -/
example : generate? { (initial.declareAll ambiguousSums).2.finish with nonterminals := ∅ } true =
    none := by
  rfl

end Builder
end Lalr
