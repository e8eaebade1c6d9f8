import Lalr.Proofs.Grammar.WellFormed
import Mathlib.Data.List.Nodup

/-! Identifiers are handed out in order. As long as there are enough of them, each map of a
builder has the numbers up to the one that comes next for its keys, and what is declared next is
appended. -/
namespace Lalr

theorem toNat_add_one {n : UInt16} (room : n.toNat + 1 < UInt16.size) :
    (n + 1).toNat = n.toNat + 1 := by
  rw [UInt16.toNat_add, UInt16.toNat_one]
  exact Nat.mod_eq_of_lt room

namespace OrderedMap

variable {κ : Type u} {α : Type v} {β : Type w} [DecidableEq κ] {m : OrderedMap κ α}
  {number : κ → Nat} {id : α → κ} {first : Nat} {k next next' : κ} {a old : α}

theorem map_put {f : α → β} {entries : List (κ × α)} (entry : lookup k entries = some old)
    (same : f a = f old) : (put k a entries).map (f ·.2) = entries.map (f ·.2) := by
  induction entries with
  | nil => cases entry
  | cons e rest ih =>
    obtain ⟨j, c⟩ := e
    by_cases here : k = j
    · simp only [lookup, if_pos here, Option.some.injEq] at entry
      simp [put, here, same, entry]
    · simp only [lookup, if_neg here] at entry
      simp [put, here, ih entry]

/-- A new value that looks like the old one leaves all values looking as they did. -/
theorem map_values_insert {f : α → β} (entry : m.get? k = some old) (same : f a = f old) :
    (m.insert k a).values.map f = m.values.map f := by
  simp only [values, List.map_map]
  exact map_put entry same

theorem filterMap_values_insert {f : α → Option β} (entry : m.get? k = some old)
    (same : f a = f old) : (m.insert k a).values.filterMap f = m.values.filterMap f := by
  have values := congrArg (List.filterMap id) (map_values_insert entry same)
  rwa [List.filterMap_map, List.filterMap_map] at values

theorem bind_get?_insert {f : α → Option β} (entry : m.get? k = some old) (same : f a = f old)
    (j : κ) : ((m.insert k a).get? j).bind f = (m.get? j).bind f := by
  rw [get?_insert]
  split
  · next here => rw [here, entry, Option.bind_some, Option.bind_some, same]
  · rfl

theorem put_concat {entries : List (κ × α)} (fresh : k ∉ entries.map Prod.fst) :
    put k a (entries ++ [(k, old)]) = entries ++ [(k, a)] := by
  induction entries with
  | nil => simp [put]
  | cons e rest ih =>
    rw [List.map_cons, List.mem_cons, not_or] at fresh
    simp [put, fresh.1, ih fresh.2]

/-- The last entry is replaced where it stands. -/
theorem toList_insert_last {entries : List (κ × α)} (last : m.toList = entries ++ [(k, old)]) :
    (m.insert k a).toList = entries ++ [(k, a)] := by
  have nodup := m.nodup
  rw [last, List.map_append, List.nodup_append] at nodup
  change put k a m.toList = _
  rw [last, put_concat fun member => nodup.2.2 k member k (by simp) rfl]

/-- The keys are the numbers from `first` on, in order, each the identifier of its value. -/
structure InOrder (number : κ → Nat) (id : α → κ) (first : Nat) (m : OrderedMap κ α) : Prop where
  keys : m.keys.map number = List.range' first m.size
  known : ∀ k a, m.get? k = some a → id a = k

theorem size_replace (entry : m.get? k = some old) (a : α) : (m.insert k a).size = m.size := by
  rw [← length_keys, keys_insert, if_pos (mem_keys_of_get? entry), length_keys]

namespace InOrder

theorem number_lt (h : m.InOrder number id first) (there : k ∈ m.keys) :
    first ≤ number k ∧ number k < first + m.size := by
  have inRange := List.mem_map_of_mem (f := number) there
  rwa [h.keys, List.mem_range'_1] at inRange

theorem fresh (h : m.InOrder number id first) (next : number k = first + m.size) : k ∉ m.keys := by
  intro there
  have := (h.number_lt there).2
  omega

theorem size_insert (h : m.InOrder number id first) (next : number k = first + m.size) (a : α) :
    (m.insert k a).size = m.size + 1 := size_insert_of_not_mem (h.fresh next) a

theorem insert (h : m.InOrder number id first) (next : number k = first + m.size)
    (known : id a = k) : (m.insert k a).InOrder number id first := by
  constructor
  case keys =>
    rw [keys_insert, if_neg (h.fresh next), List.map_append, h.keys, h.size_insert next,
      List.range'_1_concat, List.map_singleton, next]
  case known =>
    intro j c entry
    rw [get?_insert] at entry
    split at entry
    · next same =>
      cases entry
      exact known.trans same.symm
    · exact h.known j c entry

theorem replace (h : m.InOrder number id first) (entry : m.get? k = some old) (known : id a = k) :
    (m.insert k a).InOrder number id first := by
  constructor
  case keys =>
    rw [keys_insert, if_pos (mem_keys_of_get? entry), size_replace entry, h.keys]
  case known =>
    intro j c entry'
    rw [get?_insert] at entry'
    split at entry'
    · next same =>
      cases entry'
      exact known.trans same.symm
    · exact h.known j c entry'

end InOrder

/-- The keys are the numbers from `first` on, in order, each the identifier of its value, and
`next` is the number behind them. -/
structure Counted (number : κ → Nat) (id : α → κ) (first : Nat) (m : OrderedMap κ α) (next : κ) :
    Prop where
  keys : m.keys.map number = List.range' first m.size
  known : ∀ k a, m.get? k = some a → id a = k
  next : number next = first + m.size

theorem Counted.inOrder (h : m.Counted number id first next) : m.InOrder number id first :=
  ⟨h.keys, h.known⟩

theorem Counted.fresh (h : m.Counted number id first next) : next ∉ m.keys :=
  h.inOrder.fresh h.next

theorem Counted.toList_insert (h : m.Counted number id first next) (a : α) :
    (m.insert next a).toList = m.toList ++ [(next, a)] := put_of_not_mem a h.fresh

theorem Counted.values_insert (h : m.Counted number id first next) (a : α) :
    (m.insert next a).values = m.values ++ [a] := by
  simp [values, h.toList_insert a]

theorem Counted.size_insert (h : m.Counted number id first next) (a : α) :
    (m.insert next a).size = m.size + 1 := h.inOrder.size_insert h.next a

theorem Counted.insert (h : m.Counted number id first next) (known : id a = next)
    (following : number next' = number next + 1) :
    (m.insert next a).Counted number id first next' := by
  obtain ⟨keys, known⟩ := h.inOrder.insert h.next known
  refine ⟨keys, known, ?_⟩
  rw [following, h.next, h.size_insert a, Nat.add_assoc]

theorem Counted.replace (h : m.Counted number id first next) (entry : m.get? k = some old)
    (known : id a = k) : (m.insert k a).Counted number id first next := by
  obtain ⟨keys, known⟩ := h.inOrder.replace entry known
  exact ⟨keys, known, by rw [size_replace entry, h.next]⟩

/-- The identifiers of the values are the keys. -/
theorem Counted.map_values (h : m.Counted number id first next) : m.values.map id = m.keys := by
  rw [values, List.map_map, OrderedMap.keys]
  exact List.map_congr_left fun e member => h.known _ _ (mem_toList_iff.1 member)

end OrderedMap

namespace Declaration

def terminal? : Declaration → Option (String × Option Precedence)
  | .terminal name precedence => some (name, precedence)
  | _ => none

def nonterminal? : Declaration → Option String
  | .nonterminal name => some name
  | _ => none

def rule? : Declaration → Option ((NonterminalId × List Symbol) × Option Precedence)
  | .rule left right precedence => some ((left, right), precedence)
  | _ => none

def pattern? : Declaration → Option (TerminalId × String)
  | .token t pattern => some (t, pattern)
  | .whitespace pattern => some (.whitespace, pattern)
  | _ => none

def start? : Declaration → Option NonterminalId
  | .start n => some n
  | _ => none

end Declaration

namespace Builder

variable {b b' : Builder} {d : Declaration} {x : Declared}

structure Room (b : Builder) : Prop where
  terminals : b.terminals.size < UInt16.size
  nonterminals : b.nonterminals.size < UInt16.size
  rules : b.rules.size + 1 < UInt16.size

structure Numbered (b : Builder) : Prop where
  terminals : b.terminals.Counted (·.raw.toNat) Terminal.id 0 b.nextTerminal
  nonterminals : b.nonterminals.Counted (·.raw.toNat) Nonterminal.id 0 b.nextNonterminal
  rules : b.rules.Counted (·.raw.toNat) Rule.id 1 b.nextRule

theorem initial_numbered : initial.Numbered where
  terminals := by
    refine ⟨by decide, fun t terminal entry => ?_, rfl⟩
    have member := OrderedMap.mem_toList_iff.2 entry
    simp only [show initial.terminals.toList = [reservedTerminal .endOfInput,
      reservedTerminal .error, reservedTerminal .whitespace] from rfl, List.mem_cons,
      List.not_mem_nil, or_false, reservedTerminal, Prod.mk.injEq] at member
    rcases member with ⟨rfl, rfl⟩ | ⟨rfl, rfl⟩ | ⟨rfl, rfl⟩ <;> rfl
  nonterminals := by
    refine ⟨by decide, fun n nonterminal entry => ?_, rfl⟩
    have member := OrderedMap.mem_toList_iff.2 entry
    obtain ⟨rfl, rfl⟩ : n = .start ∧ nonterminal = ⟨.start, none⟩ := by
      simpa [show initial.nonterminals.toList = [(.start, ⟨.start, none⟩)] from rfl] using member
    rfl
  rules := ⟨rfl, fun _ _ entry => (nomatch entry), rfl⟩

/-- Behind a successful step the identifiers are still in order, unless they have run out. -/
theorem Numbered.step (h : b.Numbered) (s : b.Steps d x b') (room : b'.Room) : b'.Numbered := by
  cases s with
  | terminal =>
    have less := lt_of_eq_of_lt (h.terminals.size_insert _).symm room.terminals
    have next := h.terminals.next
    exact { h with terminals := h.terminals.insert rfl (toNat_add_one (by omega)) }
  | nonterminal =>
    have less := lt_of_eq_of_lt (h.nonterminals.size_insert _).symm room.nonterminals
    have next := h.nonterminals.next
    exact { h with nonterminals := h.nonterminals.insert rfl (toNat_add_one (by omega)) }
  | rule =>
    have less := lt_of_eq_of_lt
      (congrArg (· + 1) (h.rules.size_insert _).symm) room.rules
    have next := h.rules.next
    exact { h with rules := h.rules.insert rfl (toNat_add_one (by omega)) }
  | @terminalAction t old _ known =>
    have id : old.id = t := h.terminals.known t old known
    exact { h with terminals := h.terminals.replace known id }
  | @action r old _ known =>
    have id : old.id = r := h.rules.known r old known
    exact { h with rules := h.rules.replace known id }
  | _ => exact ⟨h.terminals, h.nonterminals, h.rules⟩

end Builder
end Lalr
