import Lalr.Proofs.Grammar.Defined
import Lalr.Proofs.Lookup.First

/-! FIRST sets and nullability of every grammar that can be defined. However many symbols and rules
are declared, rules are known by their identifiers and mention declared nonterminals only, and this
is all that the computation needs. -/
namespace Lalr

namespace Builder

variable {b b' : Builder} {d : Declaration} {x : Declared} {n : Nat}

/-- Declaring further symbols keeps what the rules say. -/
theorem Linked.mono (h : b.Linked)
    (nonterminals : ∀ n ∈ b.nonterminals.keys, n ∈ b'.nonterminals.keys)
    (terminals : ∀ t ∈ b.terminals.keys, t ∈ b'.terminals.keys) (rules : b'.rules = b.rules)
    (start : b'.start = b.start) : b'.Linked where
  rules r rule known := by
    obtain ⟨id, admitted⟩ := h.rules r rule (rules ▸ known)
    exact ⟨id, admitted.mono nonterminals terminals⟩
  start m known := by
    obtain ⟨other, declared⟩ := h.start m (start ▸ known)
    exact ⟨other, nonterminals m declared⟩
  reserved := nonterminals _ h.reserved

/-- A rule that takes the identifier of another one replaces it. -/
theorem Linked.insert (h : b.Linked) {r : RuleId} {rule : Rule} {next : RuleId} (id : rule.id = r)
    (admitted : b.Admits rule) :
    Linked { b with rules := b.rules.insert r rule, nextRule := next } where
  rules r' rule' known := by
    rw [OrderedMap.get?_insert] at known
    split at known
    · next same =>
      cases known
      exact ⟨id.trans same.symm, admitted.mono (fun _ => (·)) fun _ => (·)⟩
    · obtain ⟨id', admitted'⟩ := h.rules r' rule' known
      exact ⟨id', admitted'.mono (fun _ => (·)) fun _ => (·)⟩
  start := h.start
  reserved := h.reserved

theorem Linked.declare (h : b.Linked) (declared : b.declare d = (.ok x, b')) : b'.Linked := by
  cases declare_steps declared with
  | terminal =>
    exact h.mono (fun _ => (·)) (fun t member => OrderedMap.mem_keys_insert.2 (.inr member)) rfl rfl
  | nonterminal =>
    exact h.mono (fun n member => OrderedMap.mem_keys_insert.2 (.inr member)) (fun _ => (·)) rfl rfl
  | rule _ admitted => exact h.insert rfl admitted
  | terminalAction =>
    exact h.mono (fun _ => (·)) (fun t member => OrderedMap.mem_keys_insert.2 (.inr member)) rfl rfl
  | @action r old _ known =>
    obtain ⟨id, admitted⟩ := h.rules r old known
    exact h.insert id ⟨admitted.left, admitted.left_declared, admitted.right⟩
  | start allowed =>
    refine ⟨fun r rule known => ?_, fun m known => ?_, h.reserved⟩
    · obtain ⟨id, admitted⟩ := h.rules r rule known
      exact ⟨id, admitted.mono (fun _ => (·)) fun _ => (·)⟩
    · cases known
      exact allowed
  | token | whitespace | header | footer => exact h.mono (fun _ => (·)) (fun _ => (·)) rfl rfl

theorem Leads.linked (path : initial.Leads n b) : b.Linked := by
  induction path with
  | refl => exact initial_invariant.linked
  | step _ declared ih => exact ih.declare declared

/-- The accepting rule may be replaced, but what replaces it is linked as well. -/
theorem finish_linked (h : b.Linked) : b.finish.Linked := by
  have entry {r : RuleId} {rule : Rule} (known : b.finish.rule? r = some rule) :
      (∃ m, b.effectiveStart = some m ∧ r = .accept ∧ rule = acceptingRule m) ∨
        b.rules.get? r = some rule := by
    have member := OrderedMap.mem_of_get?_ofList known
    rcases List.mem_append.1 member with first | member
    · cases start : b.effectiveStart with
      | none => simp [start] at first
      | some m => exact .inl ⟨m, rfl, by simpa [start] using first⟩
    · exact .inr (OrderedMap.mem_toList_iff.1 member)
  constructor
  case rule_id =>
    intro r rule known
    rcases entry known with ⟨m, -, rfl, rfl⟩ | known
    · rfl
    · exact (h.rules r rule known).1
  case left =>
    intro rule member
    obtain ⟨r, known⟩ := OrderedMap.mem_values_iff.1 member
    rcases entry known with ⟨m, -, -, rfl⟩ | known
    · exact h.reserved
    · exact (h.rules r rule known).2.left_declared
  case right =>
    intro rule member n inRight
    obtain ⟨r, known⟩ := OrderedMap.mem_values_iff.1 member
    rcases entry known with ⟨m, start, -, rfl⟩ | known
    · obtain rfl : n = m := by simpa [acceptingRule] using inRight
      exact (effectiveStart_declared h start).2
    · exact (allowsOnRight_nonterminal.1 ((h.rules r rule known).2.right _ inRight)).2
  case terminal =>
    intro rule member t inRight
    obtain ⟨r, known⟩ := OrderedMap.mem_values_iff.1 member
    rcases entry known with ⟨m, -, -, rfl⟩ | known
    · simp [acceptingRule] at inRight
    · exact (allowsOnRight_terminal.1 ((h.rules r rule known).2.right _ inRight)).2

end Builder

/-- Grammars that a definition yields: steps that all succeed, steps of which some may fail, or the
text of a file. -/
inductive Grammar.Returned : Grammar → Prop where
  | define {steps : List Declaration} (defined : Grammar.define steps = .ok g) : Returned g
  | steps (steps : List Declaration) : Returned (Builder.initial.declareAll steps).2.finish
  | file {text : String} (defined : Grammar.ofText text = .ok g) : Returned g

/-- Whatever steps fail, the others lead from the initial builder to the one that is finished. -/
theorem Grammar.Returned.exists_leads {g : Grammar} (h : g.Returned) :
    ∃ n b, Builder.initial.Leads n b ∧ g = b.finish := by
  cases h with
  | define defined =>
    obtain ⟨b, done, rfl⟩ := map_eq_ok defined
    exact ⟨_, b, Builder.leads_of_foldlM done, rfl⟩
  | steps steps => exact ⟨_, _, Builder.declareAll_leads, rfl⟩
  | file defined =>
    obtain ⟨statements, -, lowered⟩ := Grammar.exists_of_ofText defined
    obtain ⟨b, path, rfl⟩ := Grammar.leads_of_ofStatements lowered
    exact ⟨_, b, path, rfl⟩

theorem Grammar.Returned.linked {g : Grammar} (h : g.Returned) : g.Linked := by
  obtain ⟨n, b, path, rfl⟩ := h.exists_leads
  exact Builder.finish_linked path.linked

theorem Grammar.Returned.endOfInput {g : Grammar} (h : g.Returned) :
    .endOfInput ∈ g.terminals.keys := by
  obtain ⟨n, b, path, rfl⟩ := h.exists_leads
  exact path.terminals (b := Builder.initial) (by decide)

namespace FirstSets

variable {g : Grammar}

/-- All that is looked up is found. A nonterminal is nullable if it derives the empty form, and its
set holds the terminals that begin what it derives; the set of a sequence holds what begins the
forms that it derives, and the lookaheads if it derives the empty form. -/
theorem compute_exact (h : g.Returned) :
    compute? g = some (compute g) ∧
      (∀ n, (compute g).isNullable n = true ↔ g.Derives [.nonterminal n] []) ∧
      (∀ n t, t ∈ (compute g).first n ↔ ∃ δ, g.Derives [.nonterminal n] (.terminal t :: δ)) ∧
      ∀ symbols lookaheads, (∀ n, .nonterminal n ∈ symbols → n ∈ g.nonterminals.keys) →
        ∃ set, (compute g).ofSequence? lookaheads symbols = some set ∧ ∀ t, t ∈ set ↔
          (∃ δ, g.Derives symbols (.terminal t :: δ)) ∨ g.Derives symbols [] ∧ t ∈ lookaheads := by
  obtain ⟨found, keys⟩ := compute?_eq h.linked
  refine ⟨found, fun n => isNullable_iff h.linked, fun n t => mem_first h.linked, ?_⟩
  intro symbols lookaheads declared
  exact ⟨_, ofSequence?_eq fun n member => keys ▸ declared n member,
    fun t => mem_ofSequence h.linked⟩

/-- `S := A S b | A`, `A := C | a | `, `C := C`; `U` has no rules. -/
def partlyProductive : List Declaration :=
  [.terminal "a" none, .terminal "b" none, .nonterminal "S", .nonterminal "A", .nonterminal "C",
    .nonterminal "U", .rule ⟨1⟩ [.nonterminal ⟨2⟩, .nonterminal ⟨1⟩, .terminal ⟨4⟩] none,
    .rule ⟨1⟩ [.nonterminal ⟨2⟩] none, .rule ⟨2⟩ [.nonterminal ⟨3⟩] none,
    .rule ⟨2⟩ [.terminal ⟨3⟩] none, .rule ⟨2⟩ [] none, .rule ⟨3⟩ [.nonterminal ⟨3⟩] none]

def nullableFront : List Symbol := [.nonterminal ⟨2⟩, .terminal ⟨4⟩]

/-- `S` derives the empty form and forms that `b` begins; `C` and `U` derive neither. -/
theorem compute_exact_partlyProductive :
    let g := (Builder.initial.declareAll partlyProductive).2.finish
    g.Returned ∧ g.Derives [.nonterminal ⟨1⟩] [] ∧
      (∃ δ, g.Derives [.nonterminal ⟨1⟩] (.terminal ⟨4⟩ :: δ)) ∧
      (∀ n ∈ [(⟨3⟩ : NonterminalId), ⟨4⟩], ¬ g.Derives [.nonterminal n] []) ∧
      ∃ δ, g.Derives nullableFront (.terminal ⟨4⟩ :: δ) := by
  intro g
  have returned : g.Returned := .steps partlyProductive
  obtain ⟨-, nullable, first, sequence⟩ := compute_exact returned
  refine ⟨returned, (nullable _).1 (by decide +kernel), (first _ _).1 (by decide +kernel), ?_, ?_⟩
  · intro n member
    rw [← nullable]
    revert n
    decide +kernel
  · have declared (n : NonterminalId) (member : .nonterminal n ∈ nullableFront) :
        n ∈ g.nonterminals.keys := by
      obtain rfl : n = ⟨2⟩ := by simpa [nullableFront] using member
      decide +kernel
    obtain ⟨set, found, exact⟩ := sequence nullableFront ∅ declared
    have begins : ((compute g).ofSequence? ∅ nullableFront).any (⟨4⟩ ∈ ·) = true := by
      decide +kernel
    rw [found] at begins
    simpa using (exact ⟨4⟩).1 (by simpa using begins)

end FirstSets
end Lalr
