import Lalr.Proofs.Driver.Moves
import Lalr.Proofs.Grammar.Reachable

/-! What the parser has read begins a sentence, at every step of every run. The symbols on the
stack derive what has been read, and any item of the last state says how they go on to a form of
the start symbol; productive nonterminals complete it. -/
namespace Lalr.Driver

open Grammar

variable {g : Grammar} {table : ParseTable} {a : Automaton} {defaults : Bool}
  {c c' : Configuration} {symbols symbols' : List Symbol} {input input' w : List TerminalId}
  {t : TerminalId} {n : NonterminalId}

/-- The symbols derive what has been read of `w`. -/
def Reads (g : Grammar) (w : List TerminalId) (symbols : List Symbol) (input : List TerminalId) :
    Prop :=
  ∃ read, read ++ input = w ∧ g.Derives symbols.reverse (read.map .terminal)

theorem Moves.reads (moves : Moves g symbols input symbols' input') (h : Reads g w symbols input) :
    Reads g w symbols' input' := by
  obtain ⟨read, rfl, derived⟩ := h
  cases moves with
  | @shift t core next =>
    refine ⟨read ++ [t], by simp, ?_⟩
    simpa using derived.append .refl
  | @reduce r back input rule known core =>
    refine ⟨read, rfl, Relation.ReflTransGen.head ?_ derived⟩
    simpa using Produces.rewrite back.reverse [] (mem_rules known)

/-- Symbols on a stack begin a form of the start symbol. -/
theorem exists_form (wf : g.WellFormed) (lalr : a.IsLALR g) (start : g.start = some n)
    {above : List Nat} (spells : Spells a above symbols) :
    ∃ back, g.Derives [.nonterminal n] (symbols.reverse ++ back) := by
  obtain ⟨i, core⟩ := (lalr.path _).1 ⟨_, spells.walk⟩
  obtain ⟨back, derived⟩ := derives_of_core wf start core
  exact ⟨i.rest g ++ back, by rwa [← List.append_assoc]⟩

/-- What has been read begins a sentence. -/
theorem exists_sentence (wf : g.WellFormed) (lalr : a.IsLALR g) (start : g.start = some n)
    (productive : ∀ m, g.Reachable m → g.Productive m) {above : List Nat}
    (spells : Spells a above symbols) {read : List TerminalId}
    (derived : g.Derives symbols.reverse (read.map .terminal)) :
    ∃ rest : List TerminalId, g.Derives [.nonterminal n] ((read ++ rest).map .terminal) := by
  obtain ⟨back, form⟩ := exists_form wf lalr start spells
  obtain ⟨rest, completed⟩ := exists_derives_terminals fun m member =>
    productive m (reachable_of_derives start form (List.mem_append_right _ member))
  refine ⟨rest, form.trans ?_⟩
  rw [List.map_append]
  exact derived.append completed

/-- If what can be reached can derive terminals, then what has been read begins a sentence, and a
terminal that is shifted goes on with one. Without a start symbol nothing is read. -/
theorem read_begins_sentence (defined : g.Defined)
    (built : Automaton.construct g (.compute g) = .ok a)
    (productive : ∀ m, g.Reachable m → g.Productive m)
    (path : Reaches g (.ofAutomaton g a) defaults (.initial w) c) :
    ∃ read, read ++ c.input = w ∧ (g.start = none → read = []) ∧
      ∀ n, g.start = some n →
        (∃ rest : List TerminalId, g.Derives [.nonterminal n] ((read ++ rest).map .terminal)) ∧
        ∀ row k, (ParseTable.ofAutomaton g a).rows[c.top]? = some row →
          row.action defaults c.lookahead = .shift k →
          ∃ rest : List TerminalId,
            g.Derives [.nonterminal n] ((read ++ c.lookahead :: rest).map .terminal) := by
  have wf := defined.wellFormed
  cases start : g.start with
  | none =>
    rw [Automaton.eq_empty_of_no_start wf start built] at path
    rcases Relation.ReflTransGen.cases_head path with rfl | ⟨d, move, -⟩
    · exact ⟨[], rfl, fun _ => rfl, nofun⟩
    · rw [step_empty] at move
      cases move
  | some m =>
    have accept : g.start.isSome := by simp [start]
    have lalr := Automaton.construct_isLALR wf accept built
    have fits := fits_ofAutomaton g a
    have nothing : Spells a (Configuration.initial w).above [] := trivial
    obtain ⟨symbols, spells, read, eq, derived⟩ := reaches_moves (P := Reads g w) wf accept lalr
      fits (fun h moves => moves.reads h) nothing ⟨[], rfl, .refl⟩ path
    refine ⟨read, eq, nofun, fun n same => ?_⟩
    cases same
    refine ⟨exists_sentence wf lalr start productive spells derived, fun row k there shift => ?_⟩
    obtain ⟨s, state, chooses⟩ := fits.state _ row there
    obtain ⟨-, -, longer⟩ := shift_spells wf lalr spells state (chooses.edge_of_shift shift)
    have further : g.Derives (.terminal c.lookahead :: symbols).reverse
        ((read ++ [c.lookahead]).map .terminal) := by
      simpa using derived.append .refl
    simpa using exists_sentence wf lalr start productive longer further

theorem nestedPairs_productive (defined : Grammar.define nestedPairs = .ok g)
    (built : Automaton.construct g (.compute g) = .ok a) (empty : g.rule? ⟨2⟩ = some emptyRule) :
    ∀ m, g.Reachable m → g.Productive m := by
  have wf : g.WellFormed := (Grammar.Defined.steps defined (by decide)).wellFormed
  have keys : Automaton.passes nestedPairs (fun g _ =>
      g.nonterminals.keys = [.start, ⟨1⟩]) = true := by decide +kernel
  simp only [Automaton.passes_eq defined built, decide_eq_true_eq] at keys
  intro m reachable
  obtain ⟨other, declared⟩ := reachable.declared wf
  simp only [keys, List.mem_cons, other, false_or, List.not_mem_nil, or_false] at declared
  subst declared
  exact ⟨[], derives_of_rule (mem_rules empty)⟩

/-- The parser of nested pairs reads all of `aa`, which begins a sentence, and rejects it. -/
theorem read_begins_sentence_nestedPairs : ∃ g a c, Grammar.define nestedPairs = .ok g ∧
    Automaton.construct g (.compute g) = .ok a ∧
    Reaches g (.ofAutomaton g a) true (.initial [⟨3⟩, ⟨3⟩]) c ∧ c.input = [] ∧
    step g (.ofAutomaton g a) true c = .rejected ∧ ∃ rest : List TerminalId,
      g.Derives [.nonterminal ⟨1⟩] ((⟨3⟩ :: ⟨3⟩ :: rest).map .terminal) := by
  obtain ⟨g, a, defined, start, -, empty, built⟩ := Automaton.nestedPairs_constructed
  have check : Automaton.passes nestedPairs (fun g a =>
      let c := run g (.ofAutomaton g a) true 10 (.initial [⟨3⟩, ⟨3⟩])
      c.input = [] ∧ step g (.ofAutomaton g a) true c = .rejected) = true := by
    decide +kernel
  simp only [Automaton.passes_eq defined built, decide_eq_true_eq] at check
  have path : Reaches g (.ofAutomaton g a) true (.initial [⟨3⟩, ⟨3⟩]) _ := reaches_run 10 _
  obtain ⟨read, eq, -, begins⟩ := read_begins_sentence (.steps defined (by decide)) built
    (nestedPairs_productive defined built empty) path
  rw [check.1, List.append_nil] at eq
  subst eq
  exact ⟨g, a, _, defined, built, path, check.1, check.2, (begins _ start).1⟩

end Lalr.Driver
