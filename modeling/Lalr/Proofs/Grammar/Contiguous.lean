import Lalr.Proofs.Lookup.Stages

/-! Until the identifiers have run out, the very last one included, the entries of a grammar stand
where their identifiers say, so that arrays which list the entries can be indexed by them. -/
namespace Lalr

namespace OrderedMap

variable {κ : Type u} {α : Type v} [DecidableEq κ] {m : OrderedMap κ α} {number : κ → Nat}
  {raw : κ → UInt16} {id : α → κ} {first : Nat} {k next next' : κ} {a old : α}

namespace InOrder

/-- An entry stands where its number says. -/
theorem getElem?_values (h : m.InOrder number id 0) (entry : m.get? k = some a) :
    m.values[number k]? = some a := by
  obtain ⟨i, small, here⟩ := List.getElem_of_mem (mem_toList_iff.2 entry)
  have place : number k = i := by
    have keys := List.getElem_of_eq h.keys (i := i) (by simpa [OrderedMap.keys] using small)
    simpa [OrderedMap.keys, here] using keys
  rw [place, values, List.getElem?_map, List.getElem?_eq_getElem small, here, Option.map_some]

/-- Every place is that of an entry. -/
theorem exists_of_lt (h : m.InOrder number id 0) {i : Nat} (small : i < m.size) :
    ∃ k a, m.get? k = some a ∧ number k = i := by
  have keys : i ∈ m.keys.map number := by
    rw [h.keys, List.mem_range'_1]
    omega
  obtain ⟨k, there, rfl⟩ := List.mem_map.1 keys
  obtain ⟨a, entry⟩ := mem_keys_iff.1 there
  exact ⟨k, a, entry, rfl⟩

end InOrder

/-- The map is in order, and if there is another number, then `next` has it. -/
structure Continued (raw : κ → UInt16) (id : α → κ) (first : Nat) (m : OrderedMap κ α)
    (next : κ) : Prop where
  inOrder : m.InOrder (fun k => (raw k).toNat) id first
  next : first + m.size < UInt16.size → (raw next).toNat = first + m.size

namespace Continued

theorem size_insert (h : m.Continued raw id first next) (room : first + m.size < UInt16.size)
    (a : α) : (m.insert next a).size = m.size + 1 := h.inOrder.size_insert (h.next room) a

theorem insert (h : m.Continued raw id first next) (room : first + m.size < UInt16.size)
    (known : id a = next) (following : raw next' = raw next + 1) :
    (m.insert next a).Continued raw id first next' where
  inOrder := h.inOrder.insert (h.next room) known
  next more := by
    rw [h.size_insert room] at more ⊢
    rw [following, toNat_add_one, h.next room, Nat.add_assoc]
    rwa [h.next room]

theorem replace (h : m.Continued raw id first next) (entry : m.get? k = some old)
    (known : id a = k) : (m.insert k a).Continued raw id first next where
  inOrder := h.inOrder.replace entry known
  next more := by
    rw [size_replace entry] at more ⊢
    exact h.next more

end Continued
end OrderedMap

/-- The symbols and the rules of a grammar stand in the order of their identifiers. -/
structure Grammar.Contiguous (g : Grammar) : Prop where
  terminals : g.terminals.InOrder (·.raw.toNat) Terminal.id 0
  nonterminals : g.nonterminals.InOrder (·.raw.toNat) Nonterminal.id 0
  rules : g.rules.InOrder (·.raw.toNat) Rule.id 0

/-- These steps declare no more than there are identifiers. -/
structure Declaration.Within (steps : List Declaration) : Prop where
  terminals : (steps.filterMap Declaration.terminal?).length ≤ 65533
  nonterminals : (steps.filterMap Declaration.nonterminal?).length ≤ 65535
  rules : (steps.filterMap Declaration.rule?).length ≤ 65535

namespace Builder

open Declaration

variable {b b' : Builder} {d : Declaration} {x : Declared} {steps : List Declaration}

structure Contiguous (b : Builder) : Prop where
  terminals : b.terminals.Continued TerminalId.raw Terminal.id 0 b.nextTerminal
  nonterminals : b.nonterminals.Continued NonterminalId.raw Nonterminal.id 0 b.nextNonterminal
  rules : b.rules.Continued RuleId.raw Rule.id 1 b.nextRule

structure Fits (b : Builder) (steps : List Declaration) : Prop where
  terminals : b.terminals.size + (steps.filterMap terminal?).length ≤ UInt16.size
  nonterminals : b.nonterminals.size + (steps.filterMap nonterminal?).length ≤ UInt16.size
  rules : 1 + b.rules.size + (steps.filterMap rule?).length ≤ UInt16.size

theorem initial_contiguous : initial.Contiguous where
  terminals := ⟨initial_numbered.terminals.inOrder, fun _ => rfl⟩
  nonterminals := ⟨initial_numbered.nonterminals.inOrder, fun _ => rfl⟩
  rules := ⟨initial_numbered.rules.inOrder, fun _ => rfl⟩

theorem Contiguous.step (h : b.Contiguous) (s : b.Steps d x b') (fits : b.Fits (d :: steps)) :
    b'.Contiguous ∧ b'.Fits steps := by
  obtain ⟨terminals, nonterminals, rules⟩ := fits
  cases s with
  | terminal =>
    simp only [List.filterMap_cons, terminal?, nonterminal?, rule?, List.length_cons] at *
    have room : 0 + b.terminals.size < UInt16.size := by omega
    refine ⟨{ h with terminals := h.terminals.insert room rfl rfl }, ⟨?_, nonterminals, rules⟩⟩
    rw [h.terminals.size_insert room]
    omega
  | nonterminal =>
    simp only [List.filterMap_cons, terminal?, nonterminal?, rule?, List.length_cons] at *
    have room : 0 + b.nonterminals.size < UInt16.size := by omega
    refine ⟨{ h with nonterminals := h.nonterminals.insert room rfl rfl },
      ⟨terminals, ?_, rules⟩⟩
    rw [h.nonterminals.size_insert room]
    omega
  | rule =>
    simp only [List.filterMap_cons, terminal?, nonterminal?, rule?, List.length_cons] at *
    have room : 1 + b.rules.size < UInt16.size := by omega
    refine ⟨{ h with rules := h.rules.insert room rfl rfl }, ⟨terminals, nonterminals, ?_⟩⟩
    rw [h.rules.size_insert room]
    omega
  | @terminalAction t old _ known =>
    have id : old.id = t := h.terminals.inOrder.known t old known
    refine ⟨{ h with terminals := h.terminals.replace known id }, ⟨?_, nonterminals, rules⟩⟩
    rw [OrderedMap.size_replace known]
    exact terminals
  | @action r old _ known =>
    have id : old.id = r := h.rules.inOrder.known r old known
    refine ⟨{ h with rules := h.rules.replace known id }, ⟨terminals, nonterminals, ?_⟩⟩
    rw [OrderedMap.size_replace known]
    exact rules
  | _ => exact ⟨{ h with }, ⟨terminals, nonterminals, rules⟩⟩

theorem Contiguous.declareAll (h : b.Contiguous) (fits : b.Fits (b.accepted steps)) :
    (b.declareAll steps).2.Contiguous := by
  induction steps generalizing b with
  | nil => exact h
  | cons d rest ih =>
    rcases b.declare_cases d with ⟨e, failed⟩ | ⟨x, b', declared⟩
    · rw [accepted_of_error failed] at fits
      simpa [Builder.declareAll, failed] using ih h fits
    · rw [accepted_of_ok declared] at fits
      obtain ⟨next, left⟩ := h.step (declare_steps declared) fits
      simpa [Builder.declareAll, declared] using ih next left

/-- The accepting rule has the number in front of the others. -/
theorem Contiguous.accept_not_mem (h : b.Contiguous) : RuleId.accept ∉ b.rules.keys := by
  intro there
  have := (h.rules.inOrder.number_lt there).1
  simp [RuleId.accept] at this

theorem rules_eq_nil (none : b.effectiveStart = none) : b.rules.toList = [] := by
  unfold effectiveStart at none
  cases start : b.start with
  | some n =>
    rw [start] at none
    cases none
  | none =>
    rw [start] at none
    simpa [OrderedMap.values] using none

theorem Contiguous.rules_finish (h : b.Contiguous) :
    b.finish.rules.InOrder (·.raw.toNat) Rule.id 0 := by
  have entries := toList_finish h.accept_not_mem
  have others := h.rules.inOrder.keys
  constructor
  case keys =>
    cases start : b.effectiveStart with
    | none => simp [OrderedMap.keys, OrderedMap.size, entries, start, rules_eq_nil start]
    | some n =>
      rw [OrderedMap.keys, OrderedMap.size, entries, start]
      simpa [RuleId.accept, List.range'_succ, OrderedMap.keys, OrderedMap.size] using others
  case known =>
    intro r rule entry
    have member := OrderedMap.mem_toList_iff.2 entry
    rw [entries, List.mem_append, Option.mem_toList, Option.map_eq_some_iff] at member
    rcases member with ⟨n, -, eq⟩ | member
    · cases eq
      rfl
    · exact h.rules.inOrder.known r rule (OrderedMap.mem_toList_iff.1 member)

/-- Failing steps or not, what the accepted ones declare can be found by its number. -/
theorem declareAll_contiguous (within : Within (initial.accepted steps)) :
    (initial.declareAll steps).2.finish.Contiguous := by
  have fits : initial.Fits (initial.accepted steps) := by
    obtain ⟨terminals, nonterminals, rules⟩ := within
    constructor
    · change 3 + _ ≤ 65536
      omega
    · change 1 + _ ≤ 65536
      omega
    · change 1 + 0 + _ ≤ 65536
      omega
  have last := initial_contiguous.declareAll fits
  exact ⟨last.terminals.inOrder, last.nonterminals.inOrder, last.rules_finish⟩

end Builder

/-- The grammar that steps define of which some may fail, with identifiers for all that the others
declare. -/
def Grammar.DefinedWithin (g : Grammar) : Prop :=
  ∃ steps, Declaration.Within (Builder.initial.accepted steps) ∧
    (Builder.initial.declareAll steps).2.finish = g

namespace Grammar.DefinedWithin

variable {g : Grammar}

theorem contiguous (h : g.DefinedWithin) : g.Contiguous := by
  obtain ⟨steps, within, rfl⟩ := h
  exact Builder.declareAll_contiguous within

theorem closed (h : g.DefinedWithin) : g.Closed := by
  obtain ⟨steps, within, rfl⟩ := h
  have few : ((Builder.initial.accepted steps).map Declaration.ruleCount).sum < UInt16.size := by
    rw [Declaration.sum_ruleCount]
    exact Nat.lt_succ_of_le within.rules
  exact Builder.declareAll_leads.closed few

/-- The reserved terminals stay declared. -/
theorem reserved (h : g.DefinedWithin) :
    ∀ t ∈ [TerminalId.error, .endOfInput, .whitespace], t ∈ g.terminals.keys := by
  obtain ⟨steps, -, rfl⟩ := h
  have declared : ∀ t ∈ [TerminalId.error, .endOfInput, .whitespace],
      t ∈ Builder.initial.terminals.keys := by decide
  exact fun t member => Builder.declareAll_leads.terminals (declared t member)

end Grammar.DefinedWithin
end Lalr
