import Lalr.Integrity
import Lalr.Proofs.Grammar.Declarations
import Lalr.Proofs.Lookup.Loops

/-! Names of symbols and texts of rules, looked up so that a missing symbol is noticed, and the
checks that print them. In a grammar in which everything mentioned is declared none is missing. -/
namespace Lalr

namespace Grammar

structure Closed (g : Grammar) : Prop where
  wellFormed : g.WellFormed
  endOfInput : .endOfInput ∈ g.terminals.keys
  patterned : ∀ p ∈ g.tokens, p.terminal ∈ g.terminals.keys

def terminalName? (g : Grammar) (t : TerminalId) : Option String := (g.terminal? t).map (·.name)

def nonterminalName? (g : Grammar) (n : NonterminalId) : Option String :=
  (g.nonterminal? n).map (·.name)

def symbolName? (g : Grammar) : Symbol → Option String
  | .terminal t => g.terminalName? t
  | .nonterminal n => g.nonterminalName? n

def ruleText? (g : Grammar) (rule : Rule) : Option String := do
  let left ← g.nonterminalName? rule.left
  if rule.right.isEmpty then return left ++ " :=" ++ " @empty"
  else
    let right ← rule.right.toList.mapM fun s => (g.symbolName? s).map (" " ++ ·)
    return left ++ " :=" ++ String.join right

def ruleIdText? (g : Grammar) (r : RuleId) : Option String := (g.rule? r).bind g.ruleText?

variable {g : Grammar} {t : TerminalId} {n : NonterminalId} {r : RuleId} {rule : Rule}

theorem terminalName?_eq (declared : t ∈ g.terminals.keys) :
    g.terminalName? t = some (g.terminalName t) := by
  obtain ⟨terminal, known⟩ := OrderedMap.mem_keys_iff.1 declared
  rw [terminalName?, terminalName, terminal?, known]
  rfl

theorem nonterminalName?_eq (declared : n ∈ g.nonterminals.keys) :
    g.nonterminalName? n = some (g.nonterminalName n) := by
  obtain ⟨nonterminal, known⟩ := OrderedMap.mem_keys_iff.1 declared
  rw [nonterminalName?, nonterminalName, nonterminal?, known]
  rfl

theorem WellFormed.symbolName?_eq (wf : g.WellFormed) (member : rule ∈ g.rules.values) {X : Symbol}
    (inRight : X ∈ rule.right.toList) : g.symbolName? X = some (g.symbolName X) := by
  cases X with
  | terminal t => exact terminalName?_eq (wf.terminal rule member t inRight).2
  | nonterminal n => exact nonterminalName?_eq (wf.nonterminal rule member n inRight).2

theorem WellFormed.ruleText?_eq (wf : g.WellFormed) (member : rule ∈ g.rules.values) :
    g.ruleText? rule = some (g.ruleText rule) := by
  have names : rule.right.toList.mapM (fun s => (g.symbolName? s).map (" " ++ ·)) =
      some (rule.right.toList.map fun s => " " ++ g.symbolName s) :=
    mapM_eq fun X inRight => by rw [wf.symbolName?_eq member inRight, Option.map_some]
  rw [ruleText?, ruleText, nonterminalName?_eq (wf.left_declared rule member)]
  simp only [bind, Option.bind_some, pure]
  split
  · rfl
  · rw [names, Option.bind_some]

theorem WellFormed.ruleIdText?_eq (wf : g.WellFormed) (known : g.rule? r = some rule) :
    g.ruleIdText? r = some (g.ruleIdText r) := by
  rw [ruleIdText?, ruleIdText, known, Option.bind_some, wf.ruleText?_eq (mem_rules known)]
  rfl

end Grammar

namespace Builder

variable {b : Builder} {steps : List Declaration}

theorem Leads.terminals {n : Nat} {b' : Builder} (path : b.Leads n b') {t : TerminalId}
    (declared : t ∈ b.terminals.keys) : t ∈ b'.terminals.keys := by
  induction path with
  | refl => exact declared
  | step _ last ih => exact (declare_steps last).terminals ih

theorem Leads.patterned {n : Nat} (path : initial.Leads n b) :
    ∀ p ∈ b.tokens, p.terminal ≠ .endOfInput ∧ p.terminal ∈ b.terminals.keys := by
  induction path with
  | refl => exact fun _ member => nomatch member
  | step _ last ih => exact (declare_steps last).patterned ih

/-- Only the identifiers of rules must not run out: a symbol that is declared under an identifier
in use stays declared. -/
theorem Leads.closed {n : Nat} (path : initial.Leads n b) (few : n < UInt16.size) :
    b.finish.Closed where
  wellFormed := finish_wellFormed (path.invariant initial_invariant (by simpa using few))
  endOfInput := path.terminals (b := initial) (by decide)
  patterned p member := (path.patterned p member).2

theorem declareAll_leads : b.Leads ((b.accepted steps).map Declaration.ruleCount).sum
    (b.declareAll steps).2 := by
  induction steps generalizing b with
  | nil => exact .refl
  | cons d rest ih =>
    rcases b.declare_cases d with ⟨e, failed⟩ | ⟨x, b', declared⟩
    · rw [accepted_of_error failed]
      simpa [declareAll, failed] using ih (b := b)
    · rw [accepted_of_ok declared, List.map_cons, List.sum_cons]
      simpa [declareAll, declared] using (Leads.single declared).trans (ih (b := b'))

end Builder

namespace Integrity

def checkStart? (g : Grammar) : Option Report :=
  match g.start with
  | none => some [{ kind := .malformedGrammar, message := "the grammar has no start symbol" }]
  | some start =>
    if (g.rulesOf start).isEmpty then do
      let name ← g.nonterminalName? start
      return [{
        kind := .malformedGrammar
        message := "the start symbol `" ++ name ++ "' has no production rules"
        symbol := some (.nonterminal start) }]
    else some []

def checkUndefined? (g : Grammar) : Option Report :=
  let defined := (g.rules.values.map (·.left)).eraseDups
  (firstUses defined (uses g)).mapM fun (n, rule) => do
    let name ← g.nonterminalName? n
    let text ← g.ruleText? rule
    return {
      kind := .undefinedSymbol
      message := "the nonterminal `" ++ name ++ "' is used in `" ++ text ++ "' but never defined"
      symbol := some (.nonterminal n)
      rule := some rule.id }

def checkUnreachable? (g : Grammar) : Option Report :=
  match g.start with
  | none => some []
  | some start =>
    let found := reachable g start
    (g.nonterminals.keys.filter fun n => !found.contains n).mapM fun n => do
      let name ← g.nonterminalName? n
      return {
        kind := .unreachableSymbol
        message := "the nonterminal `" ++ name ++ "' is unreachable from the start symbol"
        symbol := some (.nonterminal n) }

def check? (g : Grammar) : Option Report := do
  return (← checkStart? g) ++ (← checkUndefined? g) ++ (← checkUnreachable? g)

variable {g : Grammar}

theorem mem_of_mem_firstUses {seen : List NonterminalId} {entries : List (NonterminalId × Rule)}
    {e : NonterminalId × Rule} (member : e ∈ firstUses seen entries) : e ∈ entries := by
  induction entries generalizing seen with
  | nil => cases member
  | cons first rest ih =>
    rw [firstUses] at member
    split at member
    · exact List.mem_cons_of_mem _ (ih member)
    · rcases List.mem_cons.1 member with rfl | member
      · exact List.mem_cons_self ..
      · exact List.mem_cons_of_mem _ (ih member)

theorem mem_uses {n : NonterminalId} {rule : Rule} (member : (n, rule) ∈ uses g) :
    rule ∈ g.rules.values ∧ .nonterminal n ∈ rule.right.toList := by
  obtain ⟨rule', inRules, found⟩ := List.mem_flatMap.1 member
  obtain ⟨m, inRight, same⟩ := List.mem_map.1 found
  cases same
  obtain ⟨X, inRight, isNonterminal⟩ := List.mem_filterMap.1 inRight
  cases X with
  | terminal t => cases isNonterminal
  | nonterminal m =>
    cases isNonterminal
    exact ⟨(List.mem_filter.1 inRules).1, inRight⟩

theorem check?_eq (wf : g.WellFormed) : check? g = some (check g) := by
  have start : checkStart? g = some (checkStart g) := by
    rw [checkStart?, checkStart]
    cases start : g.start with
    | none => rfl
    | some n =>
      dsimp only
      rw [Grammar.nonterminalName?_eq (wf.start n start).2]
      split <;> rfl
  have undefined : checkUndefined? g = some (checkUndefined g) := by
    refine mapM_eq fun (n, rule) member => ?_
    obtain ⟨inRules, inRight⟩ := mem_uses (mem_of_mem_firstUses member)
    dsimp only
    rw [Grammar.nonterminalName?_eq (wf.nonterminal rule inRules n inRight).2,
      wf.ruleText?_eq inRules]
    rfl
  have unreachable : checkUnreachable? g = some (checkUnreachable g) := by
    rw [checkUnreachable?, checkUnreachable]
    cases g.start with
    | none => rfl
    | some start =>
      refine mapM_eq fun n member => ?_
      rw [Grammar.nonterminalName?_eq (List.mem_filter.1 member).1]
      rfl
  rw [check?, start, undefined, unreachable]
  rfl

end Integrity
end Lalr
