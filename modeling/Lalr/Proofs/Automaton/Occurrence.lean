import Lalr.Proofs.Automaton.Continuation
import Lalr.Proofs.Automaton.Exact
import Lalr.Proofs.Integrity.Reachability

/-! Which rules have items in the states of the automaton. A nonterminal that the start symbol
leads to stands behind the marker of an item of some state, and no other nonterminal does, so
that the search for unreachable nonterminals and the construction agree. -/
namespace Lalr

open Grammar LookaheadSet Integrity

variable {g g' : Grammar} {a : Automaton} {γ δ : List Symbol} {i : Item} {n : NonterminalId}
  {r : RuleId} {rule : Rule}

namespace Grammar

/-- What stands behind the marker of an item is reachable. -/
theorem reachable_of_rest (wf : g.WellFormed) (accept : g.start.isSome)
    (h : (g.canonical γ).core i) (member : .nonterminal n ∈ i.rest g) : g.Reachable n := by
  obtain ⟨start, known⟩ := Option.isSome_iff_exists.1 accept
  obtain ⟨back, form⟩ := derives_of_core wf known h
  exact reachable_of_derives known form (by simp [member])

theorem core_expand (h : (g.canonical γ).core i) (member : rule ∈ g.rules.values)
    (next : i.nextSymbol g = some (.nonterminal rule.left)) :
    (g.canonical γ).core ⟨rule.id, 0⟩ := by
  rw [canonical_eq_close] at h ⊢
  exact .expand h member next

/-- A string leads to each reachable nonterminal: the parts of right-hand sides in front of the
nonterminals through which it is reached. -/
theorem exists_next_of_reachable (wf : g.WellFormed) (h : g.Reachable n) :
    ∃ γ i, (g.canonical γ).core i ∧ i.nextSymbol g = some (.nonterminal n) := by
  induction h with
  | @start n known =>
    refine ⟨[], .initial, core_initial, ?_⟩
    simp [Item.nextSymbol, Item.initial, wf.accept n known, Builder.acceptingRule]
  | @right n rule _ member inRight ih =>
    obtain ⟨γ, i, core, next⟩ := ih
    obtain ⟨k, inside, here⟩ := List.getElem_of_mem inRight
    have known := wf.rule?_id member
    have le : k ≤ rule.right.size := by simpa using Nat.le_of_lt inside
    refine ⟨_, _, core_take known (core_expand core member next) le, ?_⟩
    simp only [Item.nextSymbol, known, Option.bind_some]
    rw [← Array.getElem?_toList, List.getElem?_eq_getElem inside, here]

theorem core_start_of_reachable (wf : g.WellFormed) (member : rule ∈ g.rules.values)
    (h : g.Reachable rule.left) : ∃ γ, (g.canonical γ).core ⟨rule.id, 0⟩ := by
  obtain ⟨γ, i, core, next⟩ := exists_next_of_reachable wf h
  exact ⟨γ, core_expand core member next⟩

/-- An item belongs to the accepting rule or to a rule of a reachable nonterminal. -/
theorem reachable_of_core (wf : g.WellFormed) (accept : g.start.isSome)
    (h : (g.canonical γ).core i) (known : g.rule? i.rule = some rule) :
    i.rule = .accept ∨ g.Reachable rule.left := by
  refine or_iff_not_imp_left.2 fun other => ?_
  obtain ⟨δ, rule', known', -, -, first⟩ := core_split wf accept h
  cases known.symm.trans known'
  have id := wf.rule_id _ _ known
  rw [← id] at other first
  obtain ⟨j, core, next⟩ := core_demanded wf (mem_rules known) other first
  exact reachable_of_rest wf accept core (by simp [Item.rest_of_next next])

/-- More rules for nonterminals that are reported as unreachable, and no others. -/
structure AddsUnreachable (g g' : Grammar) : Prop where
  start : g'.start = g.start
  rules : ∀ rule ∈ g'.rules.values, ReportsUnreachable g rule.left ∨
    ∃ old ∈ g.rules.values, old.left = rule.left ∧ old.right = rule.right

/-- Rules of unreachable nonterminals make nothing reachable. -/
theorem AddsUnreachable.reachable (adds : g.AddsUnreachable g') (wf : g.WellFormed)
    (accept : g.start.isSome) (h : g'.Reachable n) : g.Reachable n := by
  induction h with
  | start known => exact .start (adds.start ▸ known)
  | right _ member inRight ih =>
    rcases adds.rules _ member with reported | ⟨old, inRules, left, right⟩
    · exact absurd ih ((reportsUnreachable_iff wf accept).1 reported).2.2
    · rw [← right] at inRight
      exact .right (left ▸ ih) inRules inRight

end Grammar

namespace Automaton

def HasItem (a : Automaton) (i : Item) : Prop := ∃ s ∈ a.states, i ∈ s.items.keys

theorem IsLALR.hasItem_iff (lalr : a.IsLALR g) :
    a.HasItem i ↔ ∃ γ, (g.canonical γ).core i := by
  constructor
  · rintro ⟨s, member, present⟩
    obtain ⟨k, state⟩ := Array.getElem?_of_mem member
    obtain ⟨γ, path⟩ := lalr.reached k s state
    exact ⟨γ, (lalr.items γ k s path state i).1 present⟩
  · rintro ⟨γ, core⟩
    obtain ⟨k, path⟩ := (lalr.path γ).2 ⟨i, core⟩
    obtain ⟨s, state⟩ := lalr.state γ k path
    exact ⟨s, Array.mem_of_getElem? state, (lalr.items γ k s path state i).2 core⟩

theorem left_of_accept (wf : g.WellFormed) (accept : g.start.isSome)
    (member : rule ∈ g.rules.values) (same : rule.id = .accept) : rule.left = .start := by
  obtain ⟨n, start⟩ := Option.isSome_iff_exists.1 accept
  have known := wf.rule?_id member
  rw [same, wf.accept n start, Option.some.injEq] at known
  exact known ▸ rfl

/-- Left-hand sides are declared, so that those are reported which are neither `$start` nor
reachable. -/
theorem reportsUnreachable_left_iff (wf : g.WellFormed) (accept : g.start.isSome)
    (member : rule ∈ g.rules.values) :
    ReportsUnreachable g rule.left ↔ rule.id ≠ .accept ∧ ¬ g.Reachable rule.left := by
  rw [reportsUnreachable_iff wf accept]
  constructor
  · rintro ⟨-, other, unreachable⟩
    exact ⟨fun same => other (left_of_accept wf accept member same), unreachable⟩
  · rintro ⟨other, unreachable⟩
    exact ⟨wf.left_declared rule member, wf.left rule member other, unreachable⟩

/-- Some item of some state belongs to the rule exactly if its left-hand side is not reported,
and then some state has its first item. -/
theorem hasItem_rule_iff (wf : g.WellFormed) (accept : g.start.isSome) (lalr : a.IsLALR g)
    (known : g.rule? r = some rule) :
    ((∃ i, a.HasItem i ∧ i.rule = r) ↔ ¬ ReportsUnreachable g rule.left) ∧
      (¬ ReportsUnreachable g rule.left → a.HasItem ⟨r, 0⟩) := by
  have id := wf.rule_id _ _ known
  have member := mem_rules known
  have reported := reportsUnreachable_left_iff wf accept member
  have first (h : ¬ ReportsUnreachable g rule.left) : a.HasItem ⟨r, 0⟩ := by
    rw [lalr.hasItem_iff]
    by_cases accepts : r = .accept
    · exact ⟨[], accepts ▸ core_initial⟩
    · rw [reported, id, not_and_not_right] at h
      exact id ▸ core_start_of_reachable wf member (h accepts)
  refine ⟨⟨?_, fun h => ⟨_, first h, rfl⟩⟩, first⟩
  rintro ⟨i, there, rfl⟩
  obtain ⟨γ, core⟩ := lalr.hasItem_iff.1 there
  rw [reported, id, not_and_or, not_not, not_not]
  exact reachable_of_core wf accept core known

/-- The rules with items in some state are the accepting rule and those of nonterminals that the
check does not report; of each of these some state has the first item. More rules for reported
nonterminals have no items either. -/
theorem hasItem_iff_not_reported (defined : g.Defined) (accept : g.start.isSome)
    (built : Automaton.construct g (.compute g) = .ok a) :
    (∀ r, (∃ i, a.HasItem i ∧ i.rule = r) ↔
      r = .accept ∨ ∃ rule, g.rule? r = some rule ∧ ¬ ReportsUnreachable g rule.left) ∧
    (∀ rule ∈ g.rules.values, ¬ ReportsUnreachable g rule.left → a.HasItem ⟨rule.id, 0⟩) ∧
    ∀ g' a', g'.Defined → g.AddsUnreachable g' → Automaton.construct g' (.compute g') = .ok a' →
      ∀ i, a'.HasItem i → ∀ rule, g'.rule? i.rule = some rule →
        ¬ ReportsUnreachable g rule.left := by
  have wf := defined.wellFormed
  have lalr := construct_isLALR wf accept built
  refine ⟨fun r => ⟨?known, ?occurs⟩, fun rule member => ?first, ?added⟩
  case known =>
    rintro ⟨i, there, rfl⟩
    obtain ⟨γ, core⟩ := lalr.hasItem_iff.1 there
    obtain ⟨-, rule, known, -⟩ := core_split wf accept core
    exact .inr ⟨rule, known, (hasItem_rule_iff wf accept lalr known).1.1 ⟨i, there, rfl⟩⟩
  case occurs =>
    rintro (rfl | ⟨rule, known, unreported⟩)
    · exact ⟨_, lalr.hasItem_iff.2 ⟨[], core_initial⟩, rfl⟩
    · exact (hasItem_rule_iff wf accept lalr known).1.2 unreported
  case first => exact (hasItem_rule_iff wf accept lalr (wf.rule?_id member)).2
  case added =>
    intro g' a' defined' adds built' i there rule known reported
    have wf' := defined'.wellFormed
    have accept' : g'.start.isSome := adds.start ▸ accept
    have member := mem_rules known
    have unreported := (hasItem_rule_iff wf' accept' (construct_isLALR wf' accept' built')
      known).1.1 ⟨i, there, rfl⟩
    obtain ⟨-, other, unreachable⟩ := (reportsUnreachable_iff wf accept).1 reported
    rw [reportsUnreachable_left_iff wf' accept' member, not_and_not_right] at unreported
    exact unreachable <| adds.reachable wf accept <| unreported fun same =>
      other (left_of_accept wf' accept' member same)

def strayPairs : List Declaration := nestedPairs ++ [.nonterminal "U"]

def strayRule : Rule := ⟨⟨3⟩, ⟨2⟩, #[.nonterminal ⟨1⟩], none, none⟩

theorem strayPairs_constructed : ∃ g a g' a', Grammar.define strayPairs = .ok g ∧
    Automaton.construct g (.compute g) = .ok a ∧
    Grammar.define (strayPairs ++ [.rule ⟨2⟩ strayRule.right.toList none]) = .ok g' ∧
    Automaton.construct g' (.compute g') = .ok a' ∧ g.start = some ⟨1⟩ ∧
    g.AddsUnreachable g' ∧ g'.rule? ⟨3⟩ = some strayRule ∧ ReportsUnreachable g ⟨2⟩ := by
  have before : passes strayPairs (fun g _ => g.start = some ⟨1⟩ ∧
      g.rules.values = [Builder.acceptingRule ⟨1⟩, pairRule, emptyRule] ∧
      (checkUnreachable g).map (·.symbol) = [some (.nonterminal ⟨2⟩)]) = true := by
    decide +kernel
  have after : passes (strayPairs ++ [.rule ⟨2⟩ strayRule.right.toList none]) (fun g _ =>
      g.start = some ⟨1⟩ ∧ g.rule? ⟨3⟩ = some strayRule ∧
      g.rules.values = [Builder.acceptingRule ⟨1⟩, pairRule, emptyRule] ++ [strayRule]) = true := by
    decide +kernel
  obtain ⟨g, a, defined, built, check⟩ := exists_of_passes before
  obtain ⟨g', a', defined', built', check'⟩ := exists_of_passes after
  obtain ⟨start, rules, reports⟩ := of_decide_eq_true check
  obtain ⟨start', known, rules'⟩ := of_decide_eq_true check'
  have reported : ReportsUnreachable g ⟨2⟩ := by
    rw [ReportsUnreachable, ← List.mem_map (f := Diagnostic.symbol), reports]
    exact List.mem_singleton_self _
  refine ⟨g, a, g', a', defined, built, defined', built', start, ⟨start'.trans start.symm, ?_⟩,
    known, reported⟩
  intro rule member
  rw [rules', ← rules, List.mem_append, List.mem_singleton] at member
  rcases member with old | rfl
  · exact .inr ⟨rule, old, rfl, rfl⟩
  · exact .inl reported

/-- The first rule of nested pairs has its first item in some state; a rule added for a reported
nonterminal has no item. -/
theorem hasItem_iff_not_reported_strayPairs : ∃ g a g' a',
    Grammar.define strayPairs = .ok g ∧ Automaton.construct g (.compute g) = .ok a ∧
    Grammar.define (strayPairs ++ [.rule ⟨2⟩ strayRule.right.toList none]) = .ok g' ∧
    Automaton.construct g' (.compute g') = .ok a' ∧ ReportsUnreachable g ⟨2⟩ ∧
    g.AddsUnreachable g' ∧ g'.rule? ⟨3⟩ = some strayRule ∧ (∃ i, a.HasItem i ∧ i.rule = .accept) ∧
    ∀ i, a'.HasItem i → i.rule ≠ ⟨3⟩ := by
  obtain ⟨g, a, g', a', defined, built, defined', built', start, adds, known, reported⟩ :=
    strayPairs_constructed
  obtain ⟨occurs, -, added⟩ := hasItem_iff_not_reported (.steps defined (by decide))
    (by rw [start]; rfl) built
  refine ⟨g, a, g', a', defined, built, defined', built', reported, adds, known,
    (occurs _).2 (.inl rfl), fun i there same => ?_⟩
  exact added g' a' (.steps defined' (by decide)) adds built' i there strayRule (same ▸ known)
    reported

end Automaton
end Lalr
