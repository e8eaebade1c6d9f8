import Lalr.Proofs.Grammar.Building

/-! What a grammar has to provide for a parser to be generated from it: rules known by their
identifiers, one accepting rule, declared symbols on both sides. Every grammar that a builder
finishes provides it, because each step keeps an invariant of the builder as long as there are
identifiers for rules. -/
namespace Lalr

def Declaration.ruleCount : Declaration → Nat
  | .rule .. => 1
  | _ => 0

structure Grammar.WellFormed (g : Grammar) : Prop where
  rule_id : ∀ r rule, g.rule? r = some rule → rule.id = r
  accept : ∀ n, g.start = some n → g.rule? .accept = some (Builder.acceptingRule n)
  no_accept : g.start = none → g.acceptRule = none
  start : ∀ n, g.start = some n → n ≠ .start ∧ n ∈ g.nonterminals.keys
  left : ∀ rule ∈ g.rules.values, rule.id ≠ .accept → rule.left ≠ .start
  left_declared : ∀ rule ∈ g.rules.values, rule.left ∈ g.nonterminals.keys
  nonterminal : ∀ rule ∈ g.rules.values, ∀ n, .nonterminal n ∈ rule.right.toList →
    n ≠ .start ∧ n ∈ g.nonterminals.keys
  terminal : ∀ rule ∈ g.rules.values, ∀ t, .terminal t ∈ rule.right.toList →
    t ≠ .endOfInput ∧ t ∈ g.terminals.keys

/-- Rules are known by their identifiers, and the symbols on both sides are declared. This is what
does not depend on how many identifiers there are. -/
structure Grammar.Linked (g : Grammar) : Prop where
  rule_id : ∀ r rule, g.rule? r = some rule → rule.id = r
  left : ∀ rule ∈ g.rules.values, rule.left ∈ g.nonterminals.keys
  right : ∀ rule ∈ g.rules.values, ∀ n, .nonterminal n ∈ rule.right.toList →
    n ∈ g.nonterminals.keys
  terminal : ∀ rule ∈ g.rules.values, ∀ t, .terminal t ∈ rule.right.toList →
    t ∈ g.terminals.keys

theorem Grammar.WellFormed.linked {g : Grammar} (wf : g.WellFormed) : g.Linked where
  rule_id := wf.rule_id
  left := wf.left_declared
  right rule member n inRight := (wf.nonterminal rule member n inRight).2
  terminal rule member t inRight := (wf.terminal rule member t inRight).2

/-- With a start symbol there is an accepting rule. -/
theorem Grammar.WellFormed.acceptRule {g : Grammar} (wf : g.WellFormed) (accept : g.start.isSome) :
    g.acceptRule.isSome := by
  obtain ⟨n, start⟩ := Option.isSome_iff_exists.1 accept
  exact Option.isSome_iff_exists.2 ⟨_, wf.accept n start⟩

theorem Grammar.Linked.rule?_id {g : Grammar} (linked : g.Linked) {rule : Rule}
    (member : rule ∈ g.rules.values) : g.rule? rule.id = some rule := by
  obtain ⟨r, known⟩ := OrderedMap.mem_values_iff.1 member
  exact linked.rule_id r rule known ▸ known

theorem Grammar.WellFormed.rule?_id {g : Grammar} (wf : g.WellFormed) {rule : Rule}
    (member : rule ∈ g.rules.values) : g.rule? rule.id = some rule := wf.linked.rule?_id member

theorem Grammar.mem_rules {g : Grammar} {r : RuleId} {rule : Rule} (known : g.rule? r = some rule) :
    rule ∈ g.rules.values := OrderedMap.mem_values_iff.2 ⟨r, known⟩

/-- The rules have different identifiers. -/
theorem Grammar.Linked.nodup_ids {g : Grammar} (linked : g.Linked) :
    (g.rules.values.map Rule.id).Nodup := by
  have same : g.rules.values.map Rule.id = g.rules.keys := by
    rw [OrderedMap.values, List.map_map, OrderedMap.keys]
    exact List.map_congr_left fun e member =>
      linked.rule_id _ _ (OrderedMap.mem_toList_iff.1 member)
  exact same ▸ g.rules.keys_nodup

namespace Builder

inductive Leads (b : Builder) : Nat → Builder → Prop where
  | refl : Leads b 0 b
  | step : Leads b n b' → b'.declare d = (.ok x, b'') → Leads b (n + d.ruleCount) b''

theorem Leads.trans {b b' b'' : Builder} (first : b.Leads n b') (second : b'.Leads m b'') :
    b.Leads (n + m) b'' := by
  induction second with
  | refl => exact first
  | step _ declared ih => exact Nat.add_assoc .. ▸ ih.step declared

theorem Leads.single {b b' : Builder} (declared : b.declare d = (.ok x, b')) :
    b.Leads d.ruleCount b' := Nat.zero_add d.ruleCount ▸ Leads.refl.step declared

structure Invariant (b : Builder) (n : Nat) : Prop where
  nextRule : b.nextRule.raw.toNat = (n + 1) % UInt16.size
  rules : ∀ r rule, b.rules.get? r = some rule → rule.id = r ∧ r ≠ .accept ∧ b.Admits rule
  start : ∀ m, b.start = some m → m ≠ .start ∧ m ∈ b.nonterminals.keys
  reserved : .start ∈ b.nonterminals.keys

structure Linked (b : Builder) : Prop where
  rules : ∀ r rule, b.rules.get? r = some rule → rule.id = r ∧ b.Admits rule
  start : ∀ m, b.start = some m → m ≠ .start ∧ m ∈ b.nonterminals.keys
  reserved : .start ∈ b.nonterminals.keys

theorem Invariant.linked {b : Builder} (h : b.Invariant n) : b.Linked where
  rules r rule known := by
    obtain ⟨id, -, admitted⟩ := h.rules r rule known
    exact ⟨id, admitted⟩
  start := h.start
  reserved := h.reserved

theorem allowsOnRight_nonterminal {b : Builder} {n : NonterminalId} :
    b.allowsOnRight (.nonterminal n) = true ↔ n ≠ .start ∧ n ∈ b.nonterminals.keys := by
  simp [allowsOnRight]

theorem allowsOnRight_terminal {b : Builder} {t : TerminalId} :
    b.allowsOnRight (.terminal t) = true ↔ t ≠ .endOfInput ∧ t ∈ b.terminals.keys := by
  simp [allowsOnRight]

theorem Admits.mono {b b' : Builder} {rule : Rule} (h : b.Admits rule)
    (nonterminals : ∀ n ∈ b.nonterminals.keys, n ∈ b'.nonterminals.keys)
    (terminals : ∀ t ∈ b.terminals.keys, t ∈ b'.terminals.keys) : b'.Admits rule := by
  refine ⟨h.left, nonterminals _ h.left_declared, fun X member => ?_⟩
  have allowed := h.right X member
  cases X with
  | terminal t =>
    rw [allowsOnRight_terminal] at allowed ⊢
    exact ⟨allowed.1, terminals _ allowed.2⟩
  | nonterminal n =>
    rw [allowsOnRight_nonterminal] at allowed ⊢
    exact ⟨allowed.1, nonterminals _ allowed.2⟩

/-- Declaring further symbols keeps the invariant. -/
theorem Invariant.mono {b b' : Builder} (h : b.Invariant n)
    (nonterminals : ∀ n ∈ b.nonterminals.keys, n ∈ b'.nonterminals.keys)
    (terminals : ∀ t ∈ b.terminals.keys, t ∈ b'.terminals.keys)
    (rules : b'.rules = b.rules) (nextRule : b'.nextRule = b.nextRule)
    (start : b'.start = b.start) : b'.Invariant n where
  nextRule := nextRule ▸ h.nextRule
  rules r rule known := by
    obtain ⟨id, fresh, admitted⟩ := h.rules r rule (rules ▸ known)
    exact ⟨id, fresh, admitted.mono nonterminals terminals⟩
  start m known := by
    obtain ⟨fresh, declared⟩ := h.start m (start ▸ known)
    exact ⟨fresh, nonterminals m declared⟩
  reserved := nonterminals _ h.reserved

theorem initial_invariant : initial.Invariant 0 where
  nextRule := rfl
  rules r rule known := by cases known
  start m known := by cases known
  reserved := by decide

/-- Behind a step the invariant counts the rule that the step declares. -/
theorem Steps.invariant {b b' : Builder} (s : b.Steps d x b') (h : b.Invariant n)
    (few : n + d.ruleCount < UInt16.size) : b'.Invariant (n + d.ruleCount) := by
  cases s with
  | terminal | terminalAction =>
    exact h.mono (fun _ => id) (fun t known => OrderedMap.mem_keys_insert.2 (.inr known)) rfl rfl rfl
  | nonterminal =>
    exact h.mono (fun m known => OrderedMap.mem_keys_insert.2 (.inr known)) (fun _ => id) rfl rfl rfl
  | token | whitespace | header | footer => exact h.mono (fun _ => id) (fun _ => id) rfl rfl rfl
  | @rule left right precedence _ admitted =>
    rw [Declaration.ruleCount] at few ⊢
    have raw : b.nextRule.raw.toNat = n + 1 := by
      simp only [h.nextRule, Nat.mod_eq_of_lt few]
    refine { h with
      nextRule := ?_
      rules := fun r rule known => ?_ }
    · simp only [RuleId.next, UInt16.toNat_add, UInt16.toNat_one, raw]
    · rw [OrderedMap.get?_insert] at known
      split at known
      · next same =>
        subst same
        cases known
        refine ⟨rfl, fun accept => ?_, admitted.mono (fun _ => (·)) fun _ => (·)⟩
        have zero : RuleId.accept.raw.toNat = 0 := rfl
        rw [accept] at raw
        omega
      · obtain ⟨id, fresh, admitted⟩ := h.rules r rule known
        exact ⟨id, fresh, admitted.mono (fun _ => (·)) fun _ => (·)⟩
  | @action r _ _ known =>
    obtain ⟨id, fresh, admitted⟩ := h.rules r _ known
    refine { h with rules := fun r' rule' known' => ?_ }
    rw [OrderedMap.get?_insert] at known'
    split at known'
    · next same =>
      cases known'
      exact ⟨same ▸ id, same ▸ fresh, admitted.left, admitted.left_declared, admitted.right⟩
    · obtain ⟨id', fresh', admitted'⟩ := h.rules r' rule' known'
      exact ⟨id', fresh', admitted'.mono (fun _ => (·)) fun _ => (·)⟩
  | start allowed =>
    refine { h with
      rules := fun r rule known => ?_
      start := fun m' known => ?_ }
    · obtain ⟨id, fresh, admitted⟩ := h.rules r rule known
      exact ⟨id, fresh, admitted.mono (fun _ => (·)) fun _ => (·)⟩
    · cases known
      exact allowed

theorem Leads.invariant {b b' : Builder} (path : b.Leads n b') (h : b.Invariant m)
    (few : m + n < UInt16.size) : b'.Invariant (m + n) := by
  induction path with
  | refl => exact h
  | step _ declared ih =>
    rw [← Nat.add_assoc] at few ⊢
    exact (declare_steps declared).invariant (ih (by omega)) few

/-- The entries of the finished rules: the accepting rule, if a start symbol is known, and the
rules of the builder. -/
theorem finish_rules {b : Builder} (h : b.Invariant n) (r : RuleId) (rule : Rule) :
    b.finish.rules.get? r = some rule ↔
      (∃ m, b.effectiveStart = some m ∧ r = .accept ∧ rule = acceptingRule m) ∨
        b.rules.get? r = some rule := by
  have fresh (rule : Rule) : (RuleId.accept, rule) ∉ b.rules.toList := by
    intro member
    exact (h.rules _ _ (OrderedMap.mem_toList_iff.1 member)).2.1 rfl
  rw [finish]
  cases start : b.effectiveStart with
  | none =>
    rw [OrderedMap.get?_ofList (by simpa using b.rules.nodup)]
    simp [OrderedMap.mem_toList_iff]
  | some m =>
    rw [OrderedMap.get?_ofList (by simpa using ⟨fresh, b.rules.nodup⟩)]
    simp [OrderedMap.mem_toList_iff]

theorem effectiveStart_declared {b : Builder} (h : b.Linked)
    (start : b.effectiveStart = some m) : m ≠ .start ∧ m ∈ b.nonterminals.keys := by
  unfold effectiveStart at start
  cases given : b.start with
  | some m' =>
    rw [given] at start
    cases start
    exact h.start _ given
  | none =>
    rw [given] at start
    obtain ⟨rule, first, rfl⟩ := Option.map_eq_some_iff.1 start
    obtain ⟨r, known⟩ := OrderedMap.mem_values_iff.1 (List.mem_of_mem_head? first)
    have admitted := (h.rules r rule known).2
    exact ⟨admitted.left, admitted.left_declared⟩

theorem finish_wellFormed {b : Builder} (h : b.Invariant n) : b.finish.WellFormed := by
  have rule {rule : Rule} (member : rule ∈ b.finish.rules.values) :
      (∃ m, b.effectiveStart = some m ∧ rule = acceptingRule m) ∨
        rule.id ≠ .accept ∧ b.Admits rule := by
    obtain ⟨r, known⟩ := OrderedMap.mem_values_iff.1 member
    rcases (finish_rules h r rule).1 known with ⟨m, start, -, rfl⟩ | known
    · exact .inl ⟨m, start, rfl⟩
    · obtain ⟨id, fresh, admitted⟩ := h.rules r rule known
      exact .inr ⟨id ▸ fresh, admitted⟩
  constructor
  case rule_id =>
    intro r rule known
    rcases (finish_rules h r rule).1 known with ⟨m, -, rfl, rfl⟩ | known
    · rfl
    · exact (h.rules r rule known).1
  case accept =>
    intro m start
    exact (finish_rules h _ _).2 (.inl ⟨m, start, rfl, rfl⟩)
  case no_accept =>
    intro (start : b.effectiveStart = none)
    apply Option.eq_none_iff_forall_ne_some.2
    intro rule known
    rcases (finish_rules h _ _).1 known with ⟨m, start', -⟩ | known
    · rw [start] at start'
      cases start'
    · exact (h.rules _ _ known).2.1 rfl
  case start => exact fun m start => effectiveStart_declared h.linked start
  case left =>
    intro r member other
    rcases rule member with ⟨m, -, rfl⟩ | ⟨-, admitted⟩
    · exact absurd rfl other
    · exact admitted.left
  case left_declared =>
    intro r member
    rcases rule member with ⟨m, -, rfl⟩ | ⟨-, admitted⟩
    · exact h.reserved
    · exact admitted.left_declared
  case nonterminal =>
    intro r member X inRight
    rcases rule member with ⟨m, start, rfl⟩ | ⟨-, admitted⟩
    · obtain rfl : X = m := by simpa [acceptingRule] using inRight
      exact effectiveStart_declared h.linked start
    · exact allowsOnRight_nonterminal.1 (admitted.right _ inRight)
  case terminal =>
    intro r member t inRight
    rcases rule member with ⟨m, -, rfl⟩ | ⟨-, admitted⟩
    · simp [acceptingRule] at inRight
    · exact allowsOnRight_terminal.1 (admitted.right _ inRight)

end Builder
end Lalr
