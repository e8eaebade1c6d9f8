import Lalr.Proofs.Grammar.Numbered
import Mathlib.Algebra.GroupWithZero.Nat

/-! What a sequence of declarations leaves behind, failing ones included: a builder that holds
what the accepted ones say, in their order and with contiguous identifiers. -/
namespace Lalr

namespace Declaration

structure Few (steps : List Declaration) : Prop where
  terminals : (steps.filterMap terminal?).length < 65533
  nonterminals : (steps.filterMap nonterminal?).length < 65535
  rules : (steps.filterMap rule?).length < 65535

theorem Few.sublist {steps steps' : List Declaration} (few : Few steps')
    (sub : steps.Sublist steps') : Few steps where
  terminals := Nat.lt_of_le_of_lt (sub.filterMap terminal?).length_le few.terminals
  nonterminals := Nat.lt_of_le_of_lt (sub.filterMap nonterminal?).length_le few.nonterminals
  rules := Nat.lt_of_le_of_lt (sub.filterMap rule?).length_le few.rules

theorem filterMap_concat {f : Declaration → Option α} {steps : List Declaration} {d : Declaration} :
    (steps ++ [d]).filterMap f = steps.filterMap f ++ (f d).toList := by
  rw [List.filterMap_append]
  cases entry : f d <;> simp [entry]

theorem sum_ruleCount (steps : List Declaration) :
    (steps.map ruleCount).sum = (steps.filterMap rule?).length := by
  induction steps with
  | nil => rfl
  | cons d rest ih =>
    rw [List.map_cons, List.sum_cons, ih]
    cases d <;> simp [ruleCount, rule?, Nat.add_comm, List.filterMap_cons]

end Declaration

namespace Builder

open Declaration

variable {b b' : Builder} {d : Declaration} {x : Declared} {steps : List Declaration}

structure Holds (b : Builder) (steps : List Declaration) : Prop where
  numbered : b.Numbered
  invariant : b.Invariant (steps.map ruleCount).sum
  terminals : b.terminals.values.map (fun t => (t.exportName, t.precedence)) =
    List.replicate 3 (none, none) ++ (steps.filterMap terminal?).map fun e => (some e.1, e.2)
  nonterminals : b.nonterminals.values.map Nonterminal.exportName =
    none :: (steps.filterMap nonterminal?).map some
  rules : b.rules.values.map (fun r => ((r.left, r.right.toList), r.precedence)) =
    steps.filterMap rule?
  tokens : b.tokens = (steps.filterMap pattern?).mapIdx fun i e => ⟨e.1, e.2, i⟩
  start : b.start = (steps.filterMap start?).getLast?
  names : b.exportNames.Nodup
  distinct : ((steps.filterMap rule?).map Prod.fst).Nodup
  patterned : ∀ p ∈ b.tokens, p.terminal ≠ .endOfInput ∧ p.terminal ∈ b.terminals.keys

theorem initial_holds : initial.Holds [] where
  numbered := initial_numbered
  invariant := initial_invariant
  terminals := rfl
  nonterminals := rfl
  rules := rfl
  tokens := rfl
  start := rfl
  names := .nil
  distinct := .nil
  patterned _ member := nomatch member

/-- Declared terminals stay declared. -/
theorem Steps.terminals (s : b.Steps d x b') {t : TerminalId} (declared : t ∈ b.terminals.keys) :
    t ∈ b'.terminals.keys := by
  cases s with
  | terminal | terminalAction => exact OrderedMap.mem_keys_insert.2 (.inr declared)
  | _ => exact declared

/-- Patterns are attached to declared terminals, and not to the end of the input. -/
theorem Steps.patterned (s : b.Steps d x b')
    (patterned : ∀ p ∈ b.tokens, p.terminal ≠ .endOfInput ∧ p.terminal ∈ b.terminals.keys) :
    ∀ p ∈ b'.tokens, p.terminal ≠ .endOfInput ∧ p.terminal ∈ b'.terminals.keys := by
  have kept : ∀ p ∈ b.tokens, p.terminal ≠ .endOfInput ∧ p.terminal ∈ b'.terminals.keys :=
    fun p member => ⟨(patterned p member).1, s.terminals (patterned p member).2⟩
  cases s with
  | token allowed declared =>
    intro p member
    rcases List.mem_append.1 member with member | member
    · exact kept p member
    · obtain rfl := List.mem_singleton.1 member
      exact ⟨allowed, declared⟩
  | whitespace declared =>
    intro p member
    rcases List.mem_append.1 member with member | member
    · exact kept p member
    · obtain rfl := List.mem_singleton.1 member
      exact ⟨show TerminalId.whitespace ≠ .endOfInput by decide, declared⟩
  | _ => exact kept

section Step

variable (h : b.Holds steps) (s : b.Steps d x b')
include h s

theorem Holds.step_terminals : b'.terminals.values.map (fun t => (t.exportName, t.precedence)) =
    List.replicate 3 (none, none) ++
      ((steps ++ [d]).filterMap terminal?).map fun e => (some e.1, e.2) := by
  rw [filterMap_concat, List.map_append, ← List.append_assoc, ← h.terminals]
  cases s with
  | terminal => simp [h.numbered.terminals.values_insert, terminal?]
  | terminalAction known => simp [OrderedMap.map_values_insert known, terminal?]
  | _ => simp [terminal?]

theorem Holds.step_nonterminals : b'.nonterminals.values.map Nonterminal.exportName =
    none :: ((steps ++ [d]).filterMap nonterminal?).map some := by
  rw [filterMap_concat, List.map_append, ← List.cons_append, ← h.nonterminals]
  cases s with
  | nonterminal => simp [h.numbered.nonterminals.values_insert, nonterminal?]
  | _ => simp [nonterminal?]

theorem Holds.step_rules :
    b'.rules.values.map (fun r => ((r.left, r.right.toList), r.precedence)) =
      (steps ++ [d]).filterMap rule? := by
  rw [filterMap_concat, ← h.rules]
  cases s with
  | rule => simp [h.numbered.rules.values_insert, rule?]
  | action known => simp [OrderedMap.map_values_insert known, rule?]
  | _ => simp [rule?]

theorem Holds.step_tokens :
    b'.tokens = ((steps ++ [d]).filterMap pattern?).mapIdx fun i e => ⟨e.1, e.2, i⟩ := by
  have length : b.tokens.length = (steps.filterMap pattern?).length := by
    simpa using congrArg List.length h.tokens
  rw [filterMap_concat, List.mapIdx_append, ← h.tokens, ← length]
  cases s <;> simp [pattern?]

theorem Holds.step_start : b'.start = ((steps ++ [d]).filterMap start?).getLast? := by
  rw [filterMap_concat, List.getLast?_append, ← h.start]
  cases s <;> simp [start?]

theorem Holds.step_names : b'.exportNames.Nodup := by
  have names := h.names
  cases s with
  | @terminal name _ fresh =>
    have split : (b.terminals.values.filterMap Terminal.exportName ++
        name :: b.nonterminals.values.filterMap Nonterminal.exportName).Nodup :=
      List.nodup_middle.2 (List.nodup_cons.2 ⟨fresh, names⟩)
    simpa [exportNames, h.numbered.terminals.values_insert] using split
  | @nonterminal name fresh =>
    have split : (b.exportNames ++ [name]).Nodup :=
      List.nodup_middle.2 (List.nodup_cons.2 ⟨by simpa using fresh, by simpa using names⟩)
    simpa [exportNames, h.numbered.nonterminals.values_insert] using split
  | terminalAction known =>
    simpa [exportNames, OrderedMap.filterMap_values_insert known] using names
  | _ => exact names

theorem Holds.step_distinct : (((steps ++ [d]).filterMap rule?).map Prod.fst).Nodup := by
  rw [filterMap_concat, List.map_append]
  have distinct := h.distinct
  cases s with
  | @rule left right _ new =>
    refine List.nodup_middle.2 (List.nodup_cons.2 ⟨fun member => ?_, by simpa using distinct⟩)
    rw [List.map_nil, List.append_nil, ← h.rules, List.map_map] at member
    obtain ⟨rule, inRules, same⟩ := List.mem_map.1 member
    exact new rule inRules ⟨congrArg Prod.fst same, congrArg Prod.snd same⟩
  | _ => simpa [rule?] using distinct

end Step

/-- Behind a step the builder holds what the step declares, as long as there are identifiers. -/
theorem Holds.step (h : b.Holds steps) (few : Few (steps ++ [d]))
    (declared : b.declare d = (.ok x, b')) : b'.Holds (steps ++ [d]) := by
  have s := declare_steps declared
  have room : b'.Room := by
    have terminals := congrArg List.length (h.step_terminals s)
    have nonterminals := congrArg List.length (h.step_nonterminals s)
    have rules := congrArg List.length (h.step_rules s)
    have fewTerminals := few.terminals
    have fewNonterminals := few.nonterminals
    have fewRules := few.rules
    simp only [OrderedMap.values, List.length_map, List.length_append, List.length_replicate,
      List.length_cons] at terminals nonterminals rules
    constructor <;> simp only [OrderedMap.size, UInt16.size] <;> omega
  constructor
  case numbered => exact h.numbered.step s room
  case invariant =>
    have fewRules := few.rules
    rw [← sum_ruleCount, List.map_append, List.sum_append, List.map_singleton,
      List.sum_singleton] at fewRules
    rw [List.map_append, List.sum_append, List.map_singleton, List.sum_singleton]
    exact s.invariant h.invariant (Nat.lt_succ_of_lt fewRules)
  case terminals => exact h.step_terminals s
  case nonterminals => exact h.step_nonterminals s
  case rules => exact h.step_rules s
  case tokens => exact h.step_tokens s
  case start => exact h.step_start s
  case names => exact h.step_names s
  case distinct => exact h.step_distinct s
  case patterned => exact s.patterned h.patterned

def after (b : Builder) (steps : List Declaration) (n : Nat) : Builder :=
  (b.declareAll (steps.take n)).2

def accepted (b : Builder) (steps : List Declaration) : List Declaration :=
  ((steps.zip (b.declareAll steps).1).filter (·.2.isOk)).map Prod.fst

theorem accepted_of_error (failed : b.declare d = (.error e, b)) :
    b.accepted (d :: steps) = b.accepted steps := by
  simp [accepted, declareAll, failed, Except.isOk, Except.toBool]

theorem accepted_of_ok (declared : b.declare d = (.ok x, b')) :
    b.accepted (d :: steps) = d :: b'.accepted steps := by
  simp [accepted, declareAll, declared, Except.isOk, Except.toBool]

theorem declareAll_holds {before : List Declaration} (h : b.Holds before)
    (few : Few (before ++ b.accepted steps)) :
    (b.declareAll steps).2.Holds (before ++ b.accepted steps) := by
  induction steps generalizing b before with
  | nil => simpa [accepted, declareAll] using h
  | cons d rest ih =>
    rcases b.declare_cases d with ⟨e, failed⟩ | ⟨x, b', declared⟩
    · rw [accepted_of_error failed] at few ⊢
      simpa [declareAll, failed] using ih h few
    · rw [accepted_of_ok declared, List.append_cons] at few ⊢
      have first := h.step (few.sublist (List.sublist_append_left ..)) declared
      simpa [declareAll, declared] using ih first few

end Builder

def Grammar.userRules (g : Grammar) : List Rule := g.rules.values.filter (·.id ≠ .accept)

def Grammar.declares (g : Grammar) : Symbol → Prop
  | .terminal t => t ≠ .endOfInput ∧ t ∈ g.terminals.keys
  | .nonterminal n => n ≠ .start ∧ n ∈ g.nonterminals.keys

/-- The grammar that these successful declarations define. -/
structure Grammar.Records (g : Grammar) (steps : List Declaration) : Prop where
  terminal_ids : g.terminals.keys.map (·.raw.toNat) = List.range g.terminals.size
  terminal_known : g.terminals.values.map Terminal.id = g.terminals.keys
  terminals : g.terminals.values.map (fun t => (t.exportName, t.precedence)) =
    List.replicate 3 (none, none) ++
      (steps.filterMap Declaration.terminal?).map fun e => (some e.1, e.2)
  nonterminal_ids : g.nonterminals.keys.map (·.raw.toNat) = List.range g.nonterminals.size
  nonterminal_known : g.nonterminals.values.map Nonterminal.id = g.nonterminals.keys
  nonterminals : g.nonterminals.values.map Nonterminal.exportName =
    none :: (steps.filterMap Declaration.nonterminal?).map some
  rule_known : g.rules.values.map Rule.id = g.rules.keys
  rules : g.rules.values = (g.start.map Builder.acceptingRule).toList ++ g.userRules
  user_ids : g.userRules.map (·.id.raw.toNat) = List.range' 1 g.userRules.length
  user_rules : g.userRules.map (fun r => ((r.left, r.right.toList), r.precedence)) =
    steps.filterMap Declaration.rule?
  start : g.start = ((steps.filterMap Declaration.start?).getLast? <|>
    (steps.filterMap Declaration.rule?).head?.map (·.1.1))
  names : (g.terminals.values.filterMap Terminal.exportName ++
    g.nonterminals.values.filterMap Nonterminal.exportName).Nodup
  left : ∀ r ∈ g.userRules, g.declares (.nonterminal r.left)
  right : ∀ r ∈ g.userRules, ∀ X ∈ r.right.toList, g.declares X
  distinct : (g.userRules.map fun r => (r.left, r.right)).Nodup
  tokens : g.tokens =
    (steps.filterMap Declaration.pattern?).mapIdx fun i e => ⟨e.1, e.2, i⟩
  patterned : ∀ p ∈ g.tokens, p.terminal ≠ .endOfInput ∧ p.terminal ∈ g.terminals.keys

namespace Builder

variable {b : Builder} {steps : List Declaration}

/-- The accepting rule comes first, then all others in their order. -/
theorem toList_finish (fresh : RuleId.accept ∉ b.rules.keys) : b.finish.rules.toList =
    (b.effectiveStart.map fun n => (RuleId.accept, acceptingRule n)).toList ++ b.rules.toList := by
  cases start : b.effectiveStart with
  | none =>
    simp only [finish, start]
    exact OrderedMap.toList_ofList b.rules.nodup
  | some n =>
    simp only [finish, start]
    exact OrderedMap.toList_ofList (List.nodup_cons.2 ⟨fresh, b.rules.nodup⟩)

theorem Holds.toList_finish (h : b.Holds steps) : b.finish.rules.toList =
    (b.effectiveStart.map fun n => (RuleId.accept, acceptingRule n)).toList ++ b.rules.toList := by
  refine Builder.toList_finish fun member => ?_
  obtain ⟨rule, known⟩ := OrderedMap.mem_keys_iff.1 member
  exact (h.invariant.rules _ _ known).2.1 rfl

theorem Holds.values_finish (h : b.Holds steps) :
    b.finish.rules.values = (b.effectiveStart.map acceptingRule).toList ++ b.rules.values := by
  rw [OrderedMap.values, h.toList_finish]
  cases b.effectiveStart <;> rfl

theorem Holds.userRules_finish (h : b.Holds steps) : b.finish.userRules = b.rules.values := by
  have others : ∀ r ∈ b.rules.values, r.id ≠ .accept := by
    intro r member
    obtain ⟨id, known⟩ := OrderedMap.mem_values_iff.1 member
    obtain ⟨same, other, -⟩ := h.invariant.rules id r known
    rwa [same]
  have kept : b.rules.values.filter (·.id ≠ .accept) = b.rules.values :=
    List.filter_eq_self.2 fun r member => decide_eq_true (others r member)
  rw [Grammar.userRules, h.values_finish, List.filter_append, kept]
  cases b.effectiveStart <;> rfl

theorem Holds.records_finish (h : b.Holds steps) : b.finish.Records steps := by
  have user := h.userRules_finish
  have admits : ∀ r ∈ b.rules.values, b.Admits r := by
    intro r member
    obtain ⟨id, known⟩ := OrderedMap.mem_values_iff.1 member
    exact (h.invariant.rules id r known).2.2
  constructor
  case terminal_ids =>
    rw [List.range_eq_range']
    exact h.numbered.terminals.keys
  case terminal_known => exact h.numbered.terminals.map_values
  case terminals => exact h.terminals
  case nonterminal_ids =>
    rw [List.range_eq_range']
    exact h.numbered.nonterminals.keys
  case nonterminal_known => exact h.numbered.nonterminals.map_values
  case nonterminals => exact h.nonterminals
  case rule_known =>
    rw [h.values_finish, OrderedMap.keys, h.toList_finish, List.map_append, List.map_append,
      h.numbered.rules.map_values]
    cases b.effectiveStart <;> rfl
  case rules =>
    rw [user]
    exact h.values_finish
  case user_ids =>
    have keys := h.numbered.rules.keys
    rw [← h.numbered.rules.map_values, List.map_map] at keys
    have length : b.rules.values.length = b.rules.size := List.length_map ..
    rw [user, length]
    exact keys
  case user_rules =>
    rw [user]
    exact h.rules
  case start =>
    change (b.start <|> b.rules.values.head?.map (·.left)) = _
    rw [h.start, ← h.rules, List.head?_map, Option.map_map]
    rfl
  case names => exact h.names
  case left =>
    intro r member
    have admitted := admits r (user ▸ member)
    exact ⟨admitted.left, admitted.left_declared⟩
  case right =>
    intro r member X inRight
    have allowed := (admits r (user ▸ member)).right X inRight
    cases X with
    | terminal t => exact allowsOnRight_terminal.1 allowed
    | nonterminal n => exact allowsOnRight_nonterminal.1 allowed
  case distinct =>
    have distinct := h.distinct
    rw [← h.rules, List.map_map] at distinct
    rw [user]
    refine List.Nodup.of_map (fun e => (e.1, e.2.toList)) ?_
    rwa [List.map_map]
  case tokens => exact h.tokens
  case patterned => exact h.patterned

variable {d : Declaration}

@[simp] theorem after_zero : b.after steps 0 = b := rfl

@[simp] theorem after_cons (n : Nat) :
    b.after (d :: steps) (n + 1) = (b.declare d).2.after steps n := rfl

/-- The results are those of the single steps, one behind the other. -/
theorem declareAll_answers {n : Nat} (step : steps[n]? = some d) : ∃ result,
    (b.declareAll steps).1[n]? = some result ∧
      (b.after steps n).declare d = (result, b.after steps (n + 1)) := by
  induction steps generalizing b n with
  | nil => cases step
  | cons c rest ih =>
    cases n with
    | zero =>
      cases step
      exact ⟨(b.declare d).1, rfl, rfl⟩
    | succ n => exact ih (b := (b.declare c).2) step

/-- However many steps fail, each failing one leaves the builder as it was, and the grammar is
that of the others. -/
theorem declareAll_records (few : Declaration.Few (initial.accepted steps)) :
    (∀ n d, steps[n]? = some d → ∃ result,
      (initial.declareAll steps).1[n]? = some result ∧
      (initial.after steps n).declare d = (result, initial.after steps (n + 1)) ∧
      ∀ e, result = .error e → initial.after steps (n + 1) = initial.after steps n) ∧
    (initial.declareAll steps).2.finish.Records (initial.accepted steps) := by
  refine ⟨fun n d step => ?_, (declareAll_holds initial_holds few).records_finish⟩
  obtain ⟨result, answer, next⟩ := declareAll_answers (b := initial) step
  refine ⟨result, answer, next, ?_⟩
  rintro e rfl
  exact declare_error next

/-- Steps of which a name given twice, a rule given twice, a pattern of the end of the input and
a start symbol that nothing declares fail. -/
def interrupted : List Declaration :=
  [.terminal "a" none, .nonterminal "a", .nonterminal "S", .rule ⟨1⟩ [.terminal ⟨3⟩] none,
    .rule ⟨1⟩ [.terminal ⟨3⟩] none, .token .endOfInput "a", .token ⟨3⟩ "a", .start ⟨2⟩]

theorem declareAll_records_interrupted :
    Declaration.Few (initial.accepted interrupted) ∧
      (initial.declareAll interrupted).2.finish.Records
        [.terminal "a" none, .nonterminal "S", .rule ⟨1⟩ [.terminal ⟨3⟩] none, .token ⟨3⟩ "a"] := by
  have few : Declaration.Few (initial.accepted interrupted) :=
    ⟨by decide +kernel, by decide +kernel, by decide +kernel⟩
  have same : initial.accepted interrupted =
      [.terminal "a" none, .nonterminal "S", .rule ⟨1⟩ [.terminal ⟨3⟩] none, .token ⟨3⟩ "a"] := by
    decide +kernel
  exact ⟨few, same ▸ (declareAll_records few).2⟩

end Builder
end Lalr
