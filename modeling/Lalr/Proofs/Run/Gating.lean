import Lalr.Proofs.Lexer.Recognition

/-! What a run yields. A run ends in one of five ways, the first four of which leave something
out; which of them it is depends on the errors that have been reported, and on nothing else. -/
namespace Lalr

namespace Report

variable {report report' : Report}

@[simp] theorem hasErrors_append :
    hasErrors (report ++ report') = (report.hasErrors || report'.hasErrors) := List.any_append

theorem hasErrors_eq_false_of_warnings (h : ∀ d ∈ report, d.severity = .warning) :
    report.hasErrors = false := by
  rw [hasErrors, List.any_eq_false]
  intro d member
  simp [h d member]

end Report

variable {g : Grammar} {minimize : Bool} {o : Output}

/-- Unreachable nonterminals do no harm. -/
theorem Integrity.severity_checkUnreachable {d : Diagnostic} (member : d ∈ checkUnreachable g) :
    d.severity = .warning := by
  unfold checkUnreachable at member
  split at member
  · cases member
  · obtain ⟨n, -, rfl⟩ := List.mem_map.1 member
    rfl

/-- Nor do conflicts. -/
theorem ParseTable.severity_warnings {table : ParseTable} {d : Diagnostic}
    (member : d ∈ table.warnings g) : d.severity = .warning := by
  obtain ⟨c, -, rfl⟩ := List.mem_map.1 member
  rfl

theorem ParseTable.hasErrors_warnings (g : Grammar) (table : ParseTable) :
    (table.warnings g).hasErrors = false :=
  Report.hasErrors_eq_false_of_warnings fun _ => severity_warnings

def constructionReport (g : Grammar) : Report :=
  match Automaton.construct g (.compute g) with
  | .error e => [{ kind := .malformedGrammar, message := e.message }]
  | .ok _ => []

inductive Exit (g : Grammar) (minimize : Bool) : Output → Prop where
  | checks (errors : (Integrity.check g).hasErrors = true) :
      Exit g minimize { report := Integrity.check g, first := some (.compute g) }
  | states {e : AutomatonError} (clean : (Integrity.check g).hasErrors = false)
      (failed : Automaton.construct g (.compute g) = .error e) :
      Exit g minimize {
        report := Integrity.check g ++ constructionReport g
        first := some (.compute g) }
  | table {a : Automaton} (clean : (Integrity.check g).hasErrors = false)
      (built : Automaton.construct g (.compute g) = .ok a)
      (errors : (ParseTable.ofAutomaton g a).checkEmptyStates.hasErrors = true) :
      Exit g minimize {
        report := Integrity.check g ++ (ParseTable.ofAutomaton g a).warnings g ++
          (ParseTable.ofAutomaton g a).checkEmptyStates
        first := some (.compute g)
        automaton := some a
        table := some (.ofAutomaton g a) }
  | patterns {a : Automaton} (clean : (Integrity.check g).hasErrors = false)
      (built : Automaton.construct g (.compute g) = .ok a)
      (filled : (ParseTable.ofAutomaton g a).checkEmptyStates.hasErrors = false)
      (errors : (lexerNfa g).2.hasErrors = true) :
      Exit g minimize {
        report := Integrity.check g ++ (ParseTable.ofAutomaton g a).warnings g ++
          (ParseTable.ofAutomaton g a).checkEmptyStates ++ (lexerNfa g).2
        first := some (.compute g)
        automaton := some a
        table := some (.ofAutomaton g a)
        nfa := some (lexerNfa g).1 }
  | lexer {a : Automaton} (clean : (Integrity.check g).hasErrors = false)
      (built : Automaton.construct g (.compute g) = .ok a)
      (filled : (ParseTable.ofAutomaton g a).checkEmptyStates.hasErrors = false)
      (compiled : (lexerNfa g).2.hasErrors = false) :
      Exit g minimize {
        report := Integrity.check g ++ (ParseTable.ofAutomaton g a).warnings g ++
          (ParseTable.ofAutomaton g a).checkEmptyStates ++ (lexerNfa g).2
        first := some (.compute g)
        automaton := some a
        table := some (.ofAutomaton g a)
        nfa := some (lexerNfa g).1
        rawDfa := some (lexerNfa g).1.toDfa
        dfa := some (if minimize then (lexerNfa g).1.toDfa.minimize else (lexerNfa g).1.toDfa) }

theorem generate_exit (g : Grammar) (minimize : Bool) : Exit g minimize (generate g minimize) := by
  unfold generate
  dsimp only
  cases clean : (Integrity.check g).hasErrors with
  | true => exact .checks clean
  | false =>
    cases built : Automaton.construct g (.compute g) with
    | error e =>
      have exit : Exit g minimize _ := .states clean built
      rwa [constructionReport, built] at exit
    | ok a =>
      have conflicts := ParseTable.hasErrors_warnings g (.ofAutomaton g a)
      cases filled : (ParseTable.ofAutomaton g a).checkEmptyStates.hasErrors with
      | true =>
        simp only [Report.hasErrors_append, clean, conflicts, filled]
        exact .table clean built filled
      | false =>
        cases compiled : (lexerNfa g).2.hasErrors with
        | true =>
          simp only [Report.hasErrors_append, clean, conflicts, filled, Output.addLexer, compiled]
          exact .patterns clean built filled compiled
        | false =>
          simp only [Report.hasErrors_append, clean, conflicts, filled, Output.addLexer, compiled]
          exact .lexer clean built filled compiled

/-- Each stage has left its product exactly if no error was reported before it, and its findings
stand in the report only if it was entered. -/
structure Output.Gated (g : Grammar) (minimize : Bool) (o : Output) : Prop where
  first : o.first = some (.compute g)
  automaton : ∀ a, o.automaton = some a ↔
    (Integrity.check g).hasErrors = false ∧ Automaton.construct g (.compute g) = .ok a
  table : o.table = o.automaton.map (ParseTable.ofAutomaton g)
  nfa : ∀ nfa, o.nfa = some nfa ↔
    (∃ table, o.table = some table ∧ table.checkEmptyStates.hasErrors = false) ∧
      (lexerNfa g).1 = nfa
  rawDfa : ∀ d, o.rawDfa = some d ↔ o.isSuccess = true ∧ (lexerNfa g).1.toDfa = d
  dfa : ∀ d, o.dfa = some d ↔ o.isSuccess = true ∧
    (if minimize then (lexerNfa g).1.toDfa.minimize else (lexerNfa g).1.toDfa) = d
  complete : o.isSuccess = true → o.table.isSome ∧ o.dfa.isSome
  success : o.isSuccess = true ↔ o.nfa.isSome ∧ (lexerNfa g).2.hasErrors = false
  report : o.report =
    Integrity.checkStart g ++ Integrity.checkUndefined g ++ Integrity.checkUnreachable g ++
    (if (Integrity.check g).hasErrors then [] else constructionReport g) ++
    (o.table.map (·.warnings g)).getD [] ++ (o.table.map (·.checkEmptyStates)).getD [] ++
    if o.nfa.isSome then (lexerNfa g).2 else []
  warnings : (Integrity.check g).hasErrors =
      (Integrity.checkStart g ++ Integrity.checkUndefined g).hasErrors ∧
    ∀ table, o.table = some table → (table.warnings g).hasErrors = false

theorem constructionReport_of_ok {a : Automaton}
    (built : Automaton.construct g (.compute g) = .ok a) : constructionReport g = [] := by
  rw [constructionReport, built]

/-- A run succeeds exactly if it comes to its last stage. -/
theorem Exit.isSuccess_eq (exit : Exit g minimize o) : o.isSuccess = o.dfa.isSome := by
  cases exit with
  | checks errors => simp [Output.isSuccess, errors]
  | states clean failed => simp [Output.isSuccess, constructionReport, failed, Report.hasErrors,
      Diagnostic.severity, DiagnosticKind.severity]
  | table clean built errors => simp [Output.isSuccess, errors]
  | patterns clean built filled errors => simp [Output.isSuccess, errors]
  | lexer clean built filled compiled =>
    simp [Output.isSuccess, clean, filled, compiled, ParseTable.hasErrors_warnings]

theorem Exit.gated (exit : Exit g minimize o) : o.Gated g minimize := by
  have success := exit.isSuccess_eq
  constructor
  case first => cases exit <;> rfl
  case automaton =>
    intro a
    cases exit <;> simp [*]
  case table => cases exit <;> rfl
  case nfa =>
    intro nfa
    cases exit <;> simp [*]
  case rawDfa =>
    intro d
    rw [success]
    cases exit <;> simp
  case dfa =>
    intro d
    rw [success]
    cases exit <;> simp
  case complete =>
    rw [success]
    cases exit <;> simp
  case success =>
    rw [success]
    cases exit <;> simp [*]
  case report =>
    rw [← Integrity.check]
    cases exit <;> simp [*, constructionReport_of_ok]
  case warnings =>
    refine ⟨?_, fun table _ => table.hasErrors_warnings g⟩
    have unreachable : (Integrity.checkUnreachable g).hasErrors = false :=
      Report.hasErrors_eq_false_of_warnings fun _ => Integrity.severity_checkUnreachable
    rw [Integrity.check, Report.hasErrors_append, unreachable, Bool.or_false]

/-- A successful run has come to its end. -/
theorem Exit.of_isSuccess (exit : Exit g minimize o) (success : o.isSuccess = true) :
    ∃ a, (Integrity.check g).hasErrors = false ∧ Automaton.construct g (.compute g) = .ok a ∧
      o.automaton = some a ∧ o.table = some (ParseTable.ofAutomaton g a) ∧
      o.dfa = some (if minimize then (lexerNfa g).1.toDfa.minimize else (lexerNfa g).1.toDfa) := by
  rw [exit.isSuccess_eq] at success
  cases exit with
  | checks | states | table | patterns => cases success
  | @lexer a clean built => exact ⟨a, clean, built, rfl, rfl, rfl⟩

/-- A grammar without a start symbol is refused. -/
theorem Integrity.start_isSome (clean : (check g).hasErrors = false) : g.start.isSome := by
  rw [check, Report.hasErrors_append, Report.hasErrors_append] at clean
  cases start : g.start with
  | some n => rfl
  | none =>
    simp [checkStart, start, Report.hasErrors, Diagnostic.severity, DiagnosticKind.severity]
      at clean

/-- Automata that recognize the same tokens find the same matches. -/
theorem Lexer.Dfa.Recognizes.longestMatch_eq {d d' : Lexer.Dfa} {tokens : List TokenPattern}
    (h : d.Recognizes tokens) (h' : d'.Recognizes tokens) (input : List UInt8) :
    d.longestMatch input = d'.longestMatch input := by
  apply Option.ext
  rintro ⟨t, l⟩
  exact (h.some_iff input t l).trans (h'.some_iff input t l).symm

/-- Minimization comes last. -/
theorem generate_minimize (g : Grammar) :
    generate g true = { generate g false with dfa := (generate g true).dfa } ∧
      (generate g true).dfa.isSome = (generate g false).dfa.isSome := by
  unfold generate
  dsimp only
  split
  · exact ⟨rfl, rfl⟩
  · split
    · exact ⟨rfl, rfl⟩
    · split
      · exact ⟨rfl, rfl⟩
      · unfold Output.addLexer
        dsimp only
        split
        · exact ⟨rfl, rfl⟩
        · exact ⟨rfl, rfl⟩

/-- Every run is gated by the errors that it reports, and minimization changes nothing but the
final automaton of the lexer, which goes on to find the same matches. -/
theorem generate_gated (g : Grammar) :
    (∀ minimize, (generate g minimize).Gated g minimize) ∧
    generate g true = { generate g false with dfa := (generate g true).dfa } ∧
    (generate g true).dfa.isSome = (generate g false).dfa.isSome ∧
    ∀ d d', (generate g true).dfa = some d → (generate g false).dfa = some d' →
      ∀ input, d.longestMatch input = d'.longestMatch input := by
  obtain ⟨same, both⟩ := generate_minimize g
  refine ⟨fun minimize => (generate_exit g minimize).gated, same, both, ?_⟩
  intro d d' minimal plain
  exact (Lexer.recognizes_of_generate minimal).longestMatch_eq
    (Lexer.recognizes_of_generate plain)

end Lalr
