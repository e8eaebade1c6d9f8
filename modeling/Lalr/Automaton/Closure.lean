import Lalr.Automaton.Item
import Lalr.First

/-! LR(1) closure: items with lookaheads, completed by the items of the nonterminals that may
come next. -/
namespace Lalr

/-- Items with their lookaheads, in order of discovery. -/
abbrev ItemSet := OrderedMap Item TerminalSet

namespace ItemSet

def addLookaheads (items : ItemSet) (i : Item) (lookaheads : TerminalSet) : ItemSet :=
  items.insert i ((items.get? i).getD ∅ ∪ lookaheads)

end ItemSet

/-- Items found so far, and those whose lookaheads have to be passed on. -/
structure Closing where
  items : ItemSet
  pending : WorkList Item

namespace Closing

/-- Let the start of a rule have at least these lookaheads. An item that is new or whose
lookaheads grow has to be looked at again. -/
def demand (lookaheads : TerminalSet) (c : Closing) (rule : Rule) : Closing :=
  let i : Item := ⟨rule.id, 0⟩
  match c.items.get? i with
  | none => ⟨c.items.insert i lookaheads, c.pending.push i⟩
  | some old =>
    let new := old ∪ lookaheads
    if new = old then c else ⟨c.items.insert i new, c.pending.push i⟩

/-- For an item `[A := α . B β, L]`, demand `[B := . γ, FIRST(β L)]` for every rule of `B`. -/
def expand (g : Grammar) (first : FirstSets) (c : Closing) (i : Item) : Closing :=
  match g.rule? i.rule, i.nextSymbol g with
  | some rule, some (.nonterminal n) =>
    let lookaheads :=
      first.ofSequenceFrom ((c.items.get? i).getD ∅) rule.right (i.marker + 1)
    (g.rulesOf n).foldl (demand lookaheads) c
  | _, _ => c

def more (c : Closing) : Bool := !c.pending.isEmpty

def step (g : Grammar) (first : FirstSets) (c : Closing) : Closing :=
  match c.pending.pop with
  | none => c
  | some (i, pending) => expand g first { c with pending } i

end Closing

/-- The closure of a kernel. Each item is looked at once, and once more for each lookahead
that it gains. -/
def closure (g : Grammar) (first : FirstSets) (kernel : ItemSet) : ItemSet :=
  let fuel := (kernel.size + g.rules.size) * (UInt16.size + 1)
  (iterate Closing.more (Closing.step g first) fuel ⟨kernel, .ofList kernel.keys⟩).items

end Lalr
